import Rapidsmpf.Streaming.Outlet

/-!
# The bounded fanout

`bounded_fanout` of `streaming/core/fanout.cpp`: one actor that receives a message, removes the
channels that were shut down from its list, copies and sends the message to all remaining channels
but the last, concurrently, and moves it to the last one; only then does it receive the next
message. A copy may throw when its memory cannot be reserved. The exception surfaces when all
concurrent sends are done, and the actor then shuts every channel down.
-/

namespace Rapidsmpf.Streaming.Bounded

open Protocol ListFacts

universe u

variable {α : Type u}

/-- What an output has to do with the message of the round. -/
inductive Turn where
  | idle
  /-- Its concurrent task has not copied the message yet. -/
  | copying
  /-- It gets the message itself, when the others are done. -/
  | last
  /-- In `send`. -/
  | producing
  | done
  | draining
deriving DecidableEq

/-- Where the actor is. -/
inductive Stage (α : Type u) where
  | receiving
  /-- In `erase_if`, before the channel `i`. -/
  | filtering (m : α) (i : Nat)
  | sending (m : α)
  | draining
  /-- The destructors shut the channels down. -/
  | closing
  | returned

/-- An output: whether it is still in `chs_out`, and its channel with the consumer. -/
structure Output (α : Type u) where
  active : Bool
  turn : Turn
  outlet : Outlet α

structure State (α : Type u) where
  input : List α
  stage : Stage α
  outputs : List (Output α)
  threw : Bool

inductive Label where
  | receive
  | filter
  | copy (i : Nat)
  | copyThrows (i : Nat)
  | sent (i : Nat)
  | refused (i : Nat)
  | move
  | next
  | fail
  | drain (i : Nat)
  | drained
  | close (i : Nat)
  | leave
  | consumer (i : Nat) (c : Consumer)

/-- The turns of a round: the last channel of the list gets the message, the others copies. -/
def assign : List (Output α) → List (Output α)
  | [] => []
  | o :: rest =>
      { o with turn :=
          if o.active then if rest.any Output.active then .copying else .last else .idle } ::
        assign rest

/-- A step of one output. -/
def onOutput (s : State α) (i : Nat) (f : Output α → Option (Output α)) : Option (State α) :=
  match s.outputs[i]? with
  | some o => (f o).map fun o => { s with outputs := s.outputs.set i o }
  | none => none

def step (l : Label) (s : State α) : Option (State α) :=
  match l, s.stage with
  | .receive, .receiving =>
      match s.input with
      | m :: rest => some { s with input := rest, stage := .filtering m 0 }
      | [] => some { s with stage := .draining }
  | .filter, .filtering m i =>
      match s.outputs[i]? with
      | some o => some { s with
          stage := .filtering m (i + 1)
          outputs := s.outputs.set i
            { o with active := o.active && decide (o.outlet.ring.state = .running) } }
      | none =>
          if s.outputs.any Output.active then
            some { s with stage := .sending m, outputs := assign s.outputs }
          else some { s with stage := .draining }
  | .copy i, .sending _ => onOutput s i fun o =>
      if o.turn = .copying then some { o with turn := .producing } else none
  | .copyThrows i, .sending _ => onOutput { s with threw := true } i fun o =>
      if o.turn = .copying then some { o with turn := .done } else none
  | .sent i, .sending m => onOutput s i fun o =>
      if o.turn = .producing then
        (o.outlet.produce m).map fun outlet => { o with outlet, turn := .done }
      else none
  | .refused i, .sending _ => onOutput s i fun o =>
      if o.turn = .producing ∧ o.outlet.ring.state ≠ .running then some { o with turn := .done }
      else none
  -- the concurrent tasks are done, the exception of one of them surfaces here
  | .move, .sending _ =>
      if (∀ o ∈ s.outputs, o.turn ≠ .copying ∧ o.turn ≠ .producing) ∧ s.threw = false then
        some { s with outputs := s.outputs.map fun o =>
          if o.turn = .last then { o with turn := .producing } else o }
      else none
  | .fail, .sending _ =>
      if (∀ o ∈ s.outputs, o.turn ≠ .copying ∧ o.turn ≠ .producing) ∧ s.threw = true then
        some { s with stage := .closing }
      else none
  | .next, .sending _ =>
      if (∀ o ∈ s.outputs, o.turn = .idle ∨ o.turn = .done) ∧ s.threw = false then
        some { s with
          stage := .receiving, outputs := s.outputs.map fun o => { o with turn := .idle } }
      else none
  | .drain i, .draining => onOutput s i fun o =>
      if o.active = true ∧ o.turn = .idle then
        some { o with outlet := o.outlet.drain, turn := .draining }
      else none
  | .drained, .draining =>
      if ∀ o ∈ s.outputs, o.active = true → o.turn = .draining ∧ o.outlet.ring.buffered = [] then
        some { s with stage := .closing }
      else none
  | .close i, .closing => onOutput s i fun o => some { o with outlet := o.outlet.close }
  | .leave, .closing =>
      if ∀ o ∈ s.outputs, o.outlet.ring.state = .stopped then some { s with stage := .returned }
      else none
  | .consumer i c, _ => onOutput s i fun o =>
      (o.outlet.act c).map fun outlet => { o with outlet }
  | _, _ => none

/-- The fanout of `input`. -/
def system (input : List α) : System (State α) Label where
  init s := s.input = input ∧ s.stage = .receiving ∧ s.threw = false ∧
    ∀ o ∈ s.outputs, o = ⟨true, .idle, .new⟩
  step s l s' := step l s = some s'

/-- The messages of the input: those whose round is over, the one of the round, those to come. -/
def State.Passed (input passed : List α) (s : State α) : Prop :=
  match s.stage with
  | .receiving => passed ++ s.input = input
  | .filtering m _ => passed ++ m :: s.input = input
  | .sending m => passed ++ m :: s.input = input
  | _ => True

/-- An output whose channel is open has the messages of the rounds that are over for it. -/
def Output.Fed (input passed : List α) (stage : Stage α) (threw : Bool) (o : Output α) : Prop :=
  match stage with
  | .receiving | .filtering _ _ => o.outlet.ring.state = .running ∧ o.outlet.sent = passed
  | .sending m =>
      o.outlet.ring.state = .running ∧
        match o.turn with
        | .copying | .last | .producing => o.outlet.sent = passed
        | .done => threw = true ∨ o.outlet.sent = passed ++ [m]
        | _ => False
  | .draining => o.outlet.ring.state ≠ .stopped ∧ o.outlet.sent = input
  | _ => threw = true ∨ o.outlet.received = input

/-- What holds of an output. -/
structure Served (input passed : List α) (stage : Stage α) (threw : Bool) (o : Output α) :
    Prop where
  sound : o.outlet.Sound
  sent : o.outlet.sent <+: input
  inactive : o.active = false → o.outlet.shut = true
  fed : o.outlet.shut = true ∨ o.Fed input passed stage threw

/-- What holds of the fanout. -/
structure State.Sound (input : List α) (s : State α) : Prop where
  served : ∃ passed, s.Passed input passed ∧
    ∀ o ∈ s.outputs, Served input passed s.stage s.threw o

variable {input passed : List α} {s s' : State α} {o o' : Output α} {m : α} {threw : Bool}
  {stage : Stage α}

/-- An output that is served in one stage is served in the next one, where an open channel has
what the next stage asks for. -/
theorem Served.advance {passed' : List α} {stage' : Stage α} {threw' : Bool}
    (ho : Served input passed stage threw o) (houtlet : o'.outlet = o.outlet)
    (hactive : o'.active = o.active)
    (hfed : o.Fed input passed stage threw → o'.Fed input passed' stage' threw') :
    Served input passed' stage' threw' o' where
  sound := houtlet ▸ ho.sound
  sent := houtlet ▸ ho.sent
  inactive h := houtlet ▸ ho.inactive (hactive ▸ h)
  fed := ho.fed.imp (fun hshut => houtlet ▸ hshut) hfed

/-- An exception asks for nothing more. -/
theorem Output.Fed.raise (ho : o.Fed input passed stage threw) : o.Fed input passed stage true := by
  cases stage with
  | receiving => exact ho
  | filtering m i => exact ho
  | sending m =>
      obtain ⟨hrunning, hturn⟩ := ho
      refine ⟨hrunning, ?_⟩
      cases hcase : o.turn with
      | copying => simpa only [hcase] using hturn
      | last => simpa only [hcase] using hturn
      | producing => simpa only [hcase] using hturn
      | done => exact .inl rfl
      | idle => simp only [hcase] at hturn
      | draining => simp only [hcase] at hturn
  | draining => exact ho
  | closing => exact .inl rfl
  | returned => exact .inl rfl

/-- A step of one output keeps what holds of the fanout, when it keeps what holds of the output. -/
theorem onOutput_served {i : Nat} {f : Output α → Option (Output α)}
    (hs : ∀ o ∈ s.outputs, Served input passed s.stage s.threw o)
    (hpassed : s.Passed input passed)
    (hf : ∀ o o', Served input passed s.stage s.threw o → f o = some o' →
      Served input passed s.stage s.threw o')
    (h : onOutput s i f = some s') : s'.Sound input := by
  unfold onOutput at h
  split at h
  · next o ho =>
      obtain ⟨o', ho', rfl⟩ := Option.map_eq_some_iff.mp h
      refine ⟨passed, hpassed, fun x hx => ?_⟩
      rcases List.mem_or_eq_of_mem_set hx with hx | rfl
      · exact hs x hx
      · exact hf o x (hs o (List.mem_of_getElem? ho)) ho'
  · cases h

theorem mem_assign {outputs : List (Output α)} (h : o ∈ assign outputs) :
    ∃ o' ∈ outputs, o.outlet = o'.outlet ∧ o.active = o'.active ∧
      (o.turn = .copying ∨ o.turn = .last ∨ o'.active = false) := by
  induction outputs with
  | nil => cases h
  | cons x rest ih =>
      rcases List.mem_cons.mp h with rfl | h
      · refine ⟨x, List.mem_cons_self, rfl, rfl, ?_⟩
        cases hactive : x.active with
        | false => exact .inr (.inr rfl)
        | true =>
            by_cases hrest : rest.any Output.active = true
            · exact .inl (if_pos hrest)
            · exact .inr (.inl (if_neg hrest))
      · obtain ⟨o', ho', hfacts⟩ := ih h
        exact ⟨o', List.mem_cons_of_mem x ho', hfacts⟩

section Send

/-- A channel that accepts the message of the round had all messages before it. -/
theorem Served.sent_one (hpassed : passed ++ m :: s.input = input) {outlet : Outlet α}
    (ho : Served input passed (.sending m) threw o) (hturn : o.turn = .producing)
    (h : o.outlet.produce m = some outlet) :
    Served input passed (.sending m) threw { o with outlet, turn := .done } := by
  have hsound := ho.sound.produce h
  obtain ⟨hrunning, rfl⟩ := Outlet.produce_eq_some h
  have hsent : o.outlet.sent = passed := by
    rcases ho.fed with hshut | hfed
    · cases hrunning.symm.trans (ho.sound.shut hshut)
    · simpa only [Output.Fed, hturn] using hfed.2
  refine ⟨hsound, ?_, ho.inactive, .inr ⟨hrunning, .inr ?_⟩⟩
  · change o.outlet.sent ++ [m] <+: input
    rw [hsent, ← hpassed]
    exact ⟨s.input, List.append_assoc ..⟩
  · change o.outlet.sent ++ [m] = passed ++ [m]
    rw [hsent]

/-- A channel that refuses the message was shut down. -/
theorem Served.refused_one (ho : Served input passed (.sending m) threw o)
    (hstate : o.outlet.ring.state ≠ .running) :
    Served input passed (.sending m) threw { o with turn := .done } :=
  ⟨ho.sound, ho.sent, ho.inactive, ho.fed.imp_right fun hfed => absurd hfed.1 hstate⟩

end Send

section Drain

/-- A channel that is drained keeps what it was sent. -/
theorem Served.drain (ho : Served input passed .draining threw o) :
    Served input passed .draining threw
      { o with outlet := o.outlet.drain, turn := .draining } := by
  refine ⟨ho.sound.drain, ho.sent, ho.inactive, ho.fed.imp_right fun hfed => ⟨?_, hfed.2⟩⟩
  have hstate := hfed.1
  change (Ring.shutdownDrain _).state ≠ _
  unfold Ring.shutdownDrain
  split
  · exact nofun
  · exact hstate

/-- A channel that is empty after the last message has delivered everything. -/
theorem Served.drained (ho : Served input passed .draining threw o)
    (hempty : o.active = true → o.outlet.ring.buffered = []) :
    Served input passed .closing threw o := by
  refine ⟨ho.sound, ho.sent, ho.inactive, ?_⟩
  cases hactive : o.active with
  | false => exact .inl (ho.inactive hactive)
  | true =>
      refine ho.fed.imp_right fun hfed => .inr ?_
      exact (ho.sound.received_all hfed.1 (hempty hactive)).trans hfed.2

end Drain

/-- A consumer takes away nothing that its output needs, unless it shuts the channel down. -/
theorem Served.act {c : Consumer} {outlet : Outlet α} (ho : Served input passed stage threw o)
    (h : o.outlet.act c = some outlet) :
    Served input passed stage threw { o with outlet } := by
  obtain ⟨hsent, hshut, hstate, -⟩ := Outlet.act_eq_some h
  refine ⟨ho.sound.act h, hsent ▸ ho.sent, fun hactive => hshut (ho.inactive hactive), ?_⟩
  rcases ho.fed with hfed | hfed
  · exact .inl (hshut hfed)
  rcases hstate with hstate | ⟨-, hsame⟩
  · exact .inl hstate
  right
  cases stage with
  | receiving => exact ⟨hsame.trans hfed.1, hsent.trans hfed.2⟩
  | filtering m i => exact ⟨hsame.trans hfed.1, hsent.trans hfed.2⟩
  | sending m =>
      obtain ⟨hrunning, hturn⟩ := hfed
      refine ⟨hsame.trans hrunning, ?_⟩
      simpa only [hsent] using hturn
  | draining => exact ⟨hsame ▸ hfed.1, hsent.trans hfed.2⟩
  | closing => exact hfed.imp_right fun hall => ho.sound.act_received_all ho.sent hall h
  | returned => exact hfed.imp_right fun hall => ho.sound.act_received_all ho.sent hall h

/-- The filter removes only channels that were shut down. -/
theorem filter_sound {i : Nat} (hstage : s.stage = .filtering m i) (hs : s.Sound input)
    (h : step .filter s = some s') : s'.Sound input := by
  obtain ⟨passed, hpassed, hserved⟩ := hs
  simp only [State.Passed, hstage] at hpassed hserved
  simp only [step, hstage] at h
  split at h
  · next o hi =>
      cases h
      refine ⟨passed, hpassed, fun x hx => ?_⟩
      rcases List.mem_or_eq_of_mem_set hx with hx | rfl
      · exact (hserved x hx).advance rfl rfl fun hfed => hfed
      · have ho := hserved o (List.mem_of_getElem? hi)
        refine ⟨ho.sound, ho.sent, fun hactive => ?_, ho.fed⟩
        rcases ho.fed with hshut | hfed
        · exact hshut
        · exact ho.inactive (by simpa [hfed.1] using hactive)
  · split at h
    · cases h
      refine ⟨passed, hpassed, fun x hx => ?_⟩
      obtain ⟨o, ho, houtlet, hactive, hturn⟩ := mem_assign hx
      have ho := hserved o ho
      rcases hturn with hturn | hturn | hturn
      · refine ho.advance houtlet hactive fun hfed => ?_
        simpa only [Output.Fed, hturn, houtlet] using hfed
      · refine ho.advance houtlet hactive fun hfed => ?_
        simpa only [Output.Fed, hturn, houtlet] using hfed
      · have hshut : x.outlet.shut = true := by
          rw [houtlet]
          exact ho.inactive hturn
        exact ⟨houtlet ▸ ho.sound, houtlet ▸ ho.sent, fun _ => hshut, .inl hshut⟩
    · next hnone =>
        cases h
        refine ⟨passed, trivial, fun o ho => ?_⟩
        have hinactive : o.active = false := by
          rw [Bool.not_eq_true, List.any_eq_false] at hnone
          simpa using hnone o ho
        have ho := hserved o ho
        exact ⟨ho.sound, ho.sent, ho.inactive, .inl (ho.inactive hinactive)⟩

/-- When the round is over, every open channel has the message. -/
theorem next_sound (hstage : s.stage = .sending m) (hs : s.Sound input)
    (h : step .next s = some s') : s'.Sound input := by
  obtain ⟨passed, hpassed, hserved⟩ := hs
  simp only [State.Passed, hstage] at hpassed hserved
  simp only [step, hstage] at h
  split at h
  · next hguard =>
      cases h
      refine ⟨passed ++ [m], ?_, fun x hx => ?_⟩
      · rw [State.Passed, List.append_assoc]
        exact hpassed
      · obtain ⟨o, ho, rfl⟩ := List.mem_map.mp hx
        refine (hserved o ho).advance rfl rfl fun hfed => ⟨hfed.1, ?_⟩
        have hturn := hfed.2
        rcases hguard.1 o ho with hcase | hcase
        · simp only [hcase] at hturn
        · simpa only [hcase, hguard.2, Bool.false_eq_true, false_or] using hturn
  · cases h

theorem step_sound {l : Label} (hs : s.Sound input) (h : step l s = some s') : s'.Sound input := by
  obtain ⟨passed, hpassed, hserved⟩ := id hs
  unfold step at h
  split at h
  case h_1 hstage =>
    simp only [State.Passed, hstage] at hpassed hserved
    split at h
    · next m rest hinput =>
        cases h
        rw [hinput] at hpassed
        exact ⟨passed, hpassed, fun o ho => (hserved o ho).advance rfl rfl fun hfed => hfed⟩
    · next hinput =>
        cases h
        rw [hinput, List.append_nil] at hpassed
        refine ⟨passed, trivial, fun o ho => (hserved o ho).advance rfl rfl fun hfed => ?_⟩
        exact ⟨by rw [hfed.1]; exact nofun, hfed.2.trans hpassed⟩
  case h_2 m i hstage => exact filter_sound hstage hs (by simpa only [step, hstage] using h)
  case h_3 i m hstage =>
    refine onOutput_served hserved hpassed (fun o o' ho ho' => ?_) h
    split at ho'
    · next hturn =>
        cases ho'
        rw [hstage] at ho ⊢
        exact ho.advance rfl rfl fun hfed => by simpa only [Output.Fed, hturn] using hfed
    · cases ho'
  case h_4 i m hstage =>
    have hraised : ∀ o ∈ s.outputs, Served input passed s.stage true o := fun o ho =>
      (hserved o ho).advance rfl rfl Output.Fed.raise
    refine onOutput_served (s := { s with threw := true }) hraised hpassed (fun o o' ho ho' => ?_) h
    split at ho'
    · cases ho'
      simp only [hstage] at ho ⊢
      exact ho.advance rfl rfl fun hfed => ⟨hfed.1, .inl rfl⟩
    · cases ho'
  case h_5 i m hstage =>
    simp only [State.Passed, hstage] at hpassed
    refine onOutput_served hserved (by simpa only [State.Passed, hstage] using hpassed)
      (fun o o' ho ho' => ?_) h
    split at ho'
    · next hturn =>
        obtain ⟨outlet, houtlet, rfl⟩ := Option.map_eq_some_iff.mp ho'
        rw [hstage] at ho ⊢
        exact ho.sent_one hpassed hturn houtlet
    · cases ho'
  case h_6 i m hstage =>
    refine onOutput_served hserved hpassed (fun o o' ho ho' => ?_) h
    split at ho'
    · next hguard =>
        cases ho'
        rw [hstage] at ho ⊢
        exact ho.refused_one hguard.2
    · cases ho'
  case h_7 m hstage =>
    split at h
    · cases h
      refine ⟨passed, hpassed, fun x hx => ?_⟩
      obtain ⟨o, ho, rfl⟩ := List.mem_map.mp hx
      have ho := hserved o ho
      simp only [hstage] at ho ⊢
      split
      · next hturn =>
          exact ho.advance rfl rfl fun hfed => by simpa only [Output.Fed, hturn] using hfed
      · exact ho
    · cases h
  case h_8 m hstage =>
    split at h
    · next hguard =>
        cases h
        exact ⟨passed, trivial, fun o ho => (hserved o ho).advance rfl rfl fun _ => .inl hguard.2⟩
    · cases h
  case h_9 m hstage => exact next_sound hstage hs (by simpa only [step, hstage] using h)
  case h_10 i hstage =>
    refine onOutput_served hserved hpassed (fun o o' ho ho' => ?_) h
    split at ho'
    · cases ho'
      rw [hstage] at ho ⊢
      exact ho.drain
    · cases ho'
  case h_11 hstage =>
    split at h
    · next hguard =>
        cases h
        refine ⟨passed, trivial, fun o ho => ?_⟩
        have hempty := hguard o ho
        have ho := hserved o ho
        rw [hstage] at ho
        exact ho.drained fun hactive => (hempty hactive).2
    · cases h
  case h_12 i hstage =>
    refine onOutput_served hserved hpassed (fun o o' ho ho' => ?_) h
    cases ho'
    rw [hstage] at ho ⊢
    exact ⟨ho.sound.close, ho.sent, ho.inactive, ho.fed⟩
  case h_13 hstage =>
    split at h
    · cases h
      refine ⟨passed, trivial, fun o ho => (hserved o ho).advance rfl rfl fun hfed => ?_⟩
      simpa only [hstage, Output.Fed] using hfed
    · cases h
  case h_14 i c =>
    refine onOutput_served hserved hpassed (fun o o' ho ho' => ?_) h
    obtain ⟨outlet, houtlet, rfl⟩ := Option.map_eq_some_iff.mp ho'
    exact ho.act houtlet
  case h_15 => cases h

theorem reachable_sound (hs : (system input).Reachable s) : s.Sound input := by
  refine hs.invariant ?_ (fun s l s' h hstep => step_sound h hstep)
  rintro s ⟨hinput, hstage, -, houtputs⟩
  refine ⟨[], by simp only [State.Passed, hstage, hinput, List.nil_append], fun o ho => ?_⟩
  rw [houtputs o ho, hstage]
  exact ⟨.new, List.nil_prefix, nofun, .inr ⟨rfl, rfl⟩⟩

/-- A consumer that is told that nothing will come has received the input. -/
theorem Served.received_input (ho : Served input passed stage threw o)
    (hended : o.outlet.ended = true) (hshut : o.outlet.shut = false) (hthrew : threw = false) :
    o.outlet.received = input := by
  have hexhausted := ho.sound.ended hended
  simp only [Ring.exhausted, Bool.and_eq_true, decide_eq_true_eq, List.isEmpty_iff] at hexhausted
  obtain ⟨hstate, hempty⟩ := hexhausted
  have hfed := ho.fed.resolve_left (by rw [hshut]; exact fun h => by cases h)
  cases stage with
  | receiving => exact absurd hfed.1 hstate
  | filtering m i => exact absurd hfed.1 hstate
  | sending m => exact absurd hfed.1 hstate
  | draining => exact (ho.sound.received_all hfed.1 hempty).trans hfed.2
  | closing => exact hfed.resolve_left (by rw [hthrew]; exact fun h => by cases h)
  | returned => exact hfed.resolve_left (by rw [hthrew]; exact fun h => by cases h)

end Rapidsmpf.Streaming.Bounded
