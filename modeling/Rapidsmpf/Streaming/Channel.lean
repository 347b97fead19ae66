import Mathlib
import Rapidsmpf.Lib.ListFacts
import Rapidsmpf.Lib.Transition
import Rapidsmpf.Streaming.Message

/-!
# Channels

`streaming/core/channel.cpp`. A channel is a ring buffer of capacity one over the ids of messages
that it puts into the store of its context: `send` inserts the message and then produces the id,
`receive` consumes an id and then extracts the message. The ring buffer is that of libcoro: a
producer waits while the buffer is full, and is told that the buffer is stopped otherwise; a
shutdown discards what is buffered, a draining shutdown lets the consumers empty it first.

`stranded` says which messages of a channel are in the store: besides those that can still be
received, and those of calls in progress, the messages of every refused send and everything that a
shutdown found in the buffer.
-/

namespace Rapidsmpf.Streaming

universe u

/-- The state of a ring buffer. -/
inductive Running where
  | running
  | draining
  | stopped
deriving DecidableEq, Repr

/-- `coro::ring_buffer`. -/
structure Ring (α : Type u) where
  buffered : List α
  state : Running

namespace Ring

variable {α : Type u}

/-- A new ring buffer. -/
def new : Ring α := ⟨[], .running⟩

/-- The buffer takes an element: it has capacity one. -/
def produce (r : Ring α) (x : α) : Option (Ring α) :=
  if r.state = .running ∧ r.buffered.length < 1 then
    some { r with buffered := r.buffered ++ [x] }
  else none

/-- A consumer takes the oldest element. -/
def consume (r : Ring α) : Option (α × Ring α) :=
  match r.buffered with
  | x :: rest => some (x, { r with buffered := rest })
  | [] => none

/-- A consumer is told that nothing will come any more. -/
def exhausted (r : Ring α) : Bool :=
  r.state ≠ .running && r.buffered.isEmpty

/-- `shutdown`. -/
def shutdown (_ : Ring α) : Ring α := ⟨[], .stopped⟩

/-- `shutdown_drain`, its first part: no element is taken any more. -/
def shutdownDrain (r : Ring α) : Ring α :=
  if r.state = .running then { r with state := .draining } else r

end Ring

namespace Channel

open Protocol ListFacts

variable {α : Type u}

/-- A call of `send`. -/
inductive Send where
  /-- The message is in the store, the id not yet in the buffer. -/
  | producing (id : Nat)
  | returned (sent : Bool)

/-- A call of `receive`. -/
inductive Receive (α : Type u) where
  | waiting
  /-- The id is taken from the buffer, the message not yet from the store. -/
  | consumed (id : Nat)
  | returned (m : Option (Message α))

/-- The store, the buffer, the calls, and what has happened: the ids this channel has inserted,
those whose send was refused, and those a shutdown has discarded. The counter is a `std::uint64_t`:
fewer than `2 ^ 64` messages are inserted, so it does not wrap. -/
structure State (α : Type u) where
  counter : Nat
  store : Nat → Option (Message α)
  ring : Ring Nat
  sends : List Send
  receives : List (Receive α)
  inserted : List Nat
  refused : List Nat
  discarded : List Nat

inductive Label (α : Type u) where
  | send (m : Message α)
  | produced (k : Nat)
  | refused (k : Nat)
  | receive
  | consumed (k : Nat)
  | stopped (k : Nat)
  | extract (k : Nat)
  | shutdown
  | drain
  /-- Another user of the store inserts a message. -/
  | insertOther (m : Message α)
  /-- Another user of the store extracts one of its messages. -/
  | extractOther (id : Nat)

def step (l : Label α) (s : State α) : Option (State α) :=
  match l with
  | .send m =>
      -- message cannot be empty
      if m.empty then none
      else some { s with
        counter := s.counter + 1
        store := Function.update s.store s.counter (some m)
        sends := s.sends ++ [.producing s.counter]
        inserted := s.inserted ++ [s.counter] }
  | .produced k =>
      match s.sends[k]? with
      | some (.producing id) =>
          (s.ring.produce id).map fun ring =>
            { s with ring, sends := s.sends.set k (.returned true) }
      | _ => none
  | .refused k =>
      match s.sends[k]? with
      | some (.producing id) =>
          if s.ring.state = .running then none
          else some { s with
            sends := s.sends.set k (.returned false), refused := s.refused ++ [id] }
      | _ => none
  | .receive => some { s with receives := s.receives ++ [.waiting] }
  | .consumed k =>
      match s.receives[k]? with
      | some .waiting =>
          s.ring.consume.map fun (id, ring) =>
            { s with ring, receives := s.receives.set k (.consumed id) }
      | _ => none
  | .stopped k =>
      match s.receives[k]? with
      | some .waiting =>
          if s.ring.exhausted then
            some { s with receives := s.receives.set k (.returned none) }
          else none
      | _ => none
  | .extract k =>
      match s.receives[k]? with
      | some (.consumed id) =>
          some { s with
            store := Function.update s.store id none
            receives := s.receives.set k (.returned (s.store id)) }
      | _ => none
  | .shutdown => some { s with
      ring := s.ring.shutdown, discarded := s.discarded ++ s.ring.buffered }
  | .drain => some { s with ring := s.ring.shutdownDrain }
  | .insertOther m => some { s with
      counter := s.counter + 1, store := Function.update s.store s.counter (some m) }
  | .extractOther id =>
      if id ∈ s.inserted then none else some { s with store := Function.update s.store id none }

/-- A new channel on a store that others may have used already. -/
def system : System (State α) (Label α) where
  init s := s.ring = .new ∧ s.sends = [] ∧ s.receives = [] ∧ s.inserted = [] ∧ s.refused = [] ∧
    s.discarded = []
  step s l s' := step l s = some s'

/-- The id of a send in progress. -/
def Send.id? : Send → Option Nat
  | .producing id => some id
  | .returned _ => none

/-- The id of a receive that has to extract its message. -/
def Receive.id? : Receive α → Option Nat
  | .consumed id => some id
  | _ => none

/-- No send or receive is in progress that has a message in its hands. -/
def Quiet (s : State α) : Prop :=
  (∀ x ∈ s.sends, ∃ sent, x = .returned sent) ∧ ∀ x ∈ s.receives, x.id? = none

/-- Where the ids of the channel can be. -/
def places (s : State α) : List Nat :=
  s.ring.buffered ++ (s.sends.filterMap Send.id? ++ (s.receives.filterMap Receive.id? ++
    (s.refused ++ s.discarded)))

/-- Every message of the channel that is in the store is in one place, and only there. -/
structure Placed (s : State α) : Prop where
  nodup : (places s).Nodup
  inserted : ∀ id ∈ places s, id ∈ s.inserted
  present : ∀ id ∈ s.inserted, (s.store id).isSome ↔ id ∈ places s
  bounded : ∀ id ∈ s.inserted, id < s.counter

section Steps

variable {s s' : State α} {l : Label α}

/-- Ids that only change their place. -/
theorem Placed.moved (hp : Placed s) (hperm : (places s').Perm (places s))
    (hstore : s'.store = s.store) (hinserted : s'.inserted = s.inserted)
    (hcounter : s'.counter = s.counter) : Placed s' := by
  refine ⟨hperm.nodup_iff.mpr hp.nodup, fun id hid => ?_, fun id hid => ?_, fun id hid => ?_⟩
  · rw [hinserted]
    exact hp.inserted id (hperm.mem_iff.mp hid)
  · rw [hinserted] at hid
    rw [hstore, hperm.mem_iff]
    exact hp.present id hid
  · rw [hinserted] at hid
    rw [hcounter]
    exact hp.bounded id hid

/-- A new message of the channel. -/
theorem Placed.added (hp : Placed s) {m : Message α}
    (hperm : (places s').Perm (s.counter :: places s))
    (hstore : s'.store = Function.update s.store s.counter (some m))
    (hinserted : s'.inserted = s.inserted ++ [s.counter])
    (hcounter : s'.counter = s.counter + 1) : Placed s' := by
  have hnew : s.counter ∉ s.inserted := fun hmem => Nat.lt_irrefl _ (hp.bounded _ hmem)
  have hnot : s.counter ∉ places s := fun hmem => hnew (hp.inserted _ hmem)
  refine ⟨hperm.nodup_iff.mpr (List.nodup_cons.mpr ⟨hnot, hp.nodup⟩), fun id hid => ?_,
    fun id hid => ?_, fun id hid => ?_⟩
  · rw [hinserted]
    rcases List.mem_cons.mp (hperm.mem_iff.mp hid) with rfl | hid
    · exact List.mem_append_right _ (List.mem_singleton.mpr rfl)
    · exact List.mem_append_left _ (hp.inserted id hid)
  · rw [hstore, hperm.mem_iff, List.mem_cons]
    rw [hinserted] at hid
    by_cases heq : id = s.counter
    · simp [heq]
    · have hid : id ∈ s.inserted := by simpa [heq] using hid
      rw [Function.update_of_ne heq]
      simp only [heq, false_or]
      exact hp.present id hid
  · rw [hinserted] at hid
    rw [hcounter]
    rcases List.mem_append.mp hid with hid | hid
    · exact Nat.lt_succ_of_lt (hp.bounded id hid)
    · rw [List.mem_singleton.mp hid]
      exact Nat.lt_succ_self _

/-- A message of the channel that is extracted. -/
theorem Placed.removed (hp : Placed s) {id : Nat} (hperm : (id :: places s').Perm (places s))
    (hstore : s'.store = Function.update s.store id none)
    (hinserted : s'.inserted = s.inserted) (hcounter : s'.counter = s.counter) : Placed s' := by
  have hnodup := hperm.nodup_iff.mpr hp.nodup
  obtain ⟨hnot, hrest⟩ := List.nodup_cons.mp hnodup
  refine ⟨hrest, fun k hk => ?_, fun k hk => ?_, fun k hk => ?_⟩
  · rw [hinserted]
    exact hp.inserted k (hperm.mem_iff.mp (List.mem_cons_of_mem _ hk))
  · rw [hinserted] at hk
    by_cases heq : k = id
    · subst heq
      simp [hstore, hnot]
    · rw [hstore, Function.update_of_ne heq, hp.present k hk, ← hperm.mem_iff, List.mem_cons]
      simp only [heq, false_or]
  · rw [hinserted] at hk
    rw [hcounter]
    exact hp.bounded k hk

theorem produce_eq_some {r r' : Ring Nat} {id : Nat} (h : r.produce id = some r') :
    r'.buffered = r.buffered ++ [id] := by
  rw [Ring.produce] at h
  split at h
  · cases h
    rfl
  · cases h

theorem consume_eq_some {r r' : Ring Nat} {id : Nat} (h : r.consume = some (id, r')) :
    r.buffered = id :: r'.buffered := by
  rw [Ring.consume] at h
  split at h
  · next x rest hbuffered =>
      cases h
      exact hbuffered
  · cases h

theorem shutdown_drain_buffered (r : Ring Nat) : r.shutdownDrain.buffered = r.buffered := by
  rw [Ring.shutdownDrain]
  split
  · rfl
  · rfl

/-- Every step keeps the messages of the channel in their places. -/
theorem Placed.step (hp : Placed s) (h : Channel.step l s = some s') : Placed s' := by
  cases l with
  | send m =>
      simp only [Channel.step] at h
      split at h
      · cases h
      · cases h
        refine hp.added (m := m) (List.perm_iff_count.mpr fun a => ?_) rfl rfl rfl
        have hnew : [Send.producing s.counter].filterMap Send.id? = [s.counter] := rfl
        simp only [places, List.filterMap_append, hnew, List.count_append, List.count_cons,
          List.count_nil]
        omega
  | produced k =>
      simp only [Channel.step] at h
      split at h
      case h_2 => cases h
      case h_1 id hk =>
        obtain ⟨ring, hring, rfl⟩ := Option.map_eq_some_iff.mp h
        refine hp.moved (List.perm_iff_count.mpr fun a => ?_) rfl rfl rfl
        have hset := (filterMap_set_perm hk Send.id? (.returned true)).count_eq a
        simp only [Send.id?, Option.toList_some, Option.toList_none, List.nil_append,
          List.count_append] at hset
        simp only [places, produce_eq_some hring, List.count_append]
        omega
  | refused k =>
      simp only [Channel.step] at h
      split at h
      case h_2 => cases h
      case h_1 id hk =>
        split at h
        · cases h
        · cases h
          refine hp.moved (List.perm_iff_count.mpr fun a => ?_) rfl rfl rfl
          have hset := (filterMap_set_perm hk Send.id? (.returned false)).count_eq a
          simp only [Send.id?, Option.toList_some, Option.toList_none, List.nil_append,
            List.count_append] at hset
          simp only [places, List.count_append]
          omega
  | receive =>
      cases h
      refine hp.moved (List.perm_iff_count.mpr fun a => ?_) rfl rfl rfl
      have hnew : [Receive.waiting].filterMap (Receive.id? (α := α)) = [] := rfl
      simp only [places, List.filterMap_append, hnew, List.append_nil]
  | consumed k =>
      simp only [Channel.step] at h
      split at h
      case h_2 => cases h
      case h_1 hk =>
        obtain ⟨⟨id, ring⟩, hring, rfl⟩ := Option.map_eq_some_iff.mp h
        refine hp.moved (List.perm_iff_count.mpr fun a => ?_) rfl rfl rfl
        have hset := (filterMap_set_perm hk Receive.id? (.consumed id)).count_eq a
        simp only [Receive.id?, Option.toList_some, Option.toList_none, List.nil_append,
          List.count_append, List.count_cons, List.count_nil] at hset
        simp only [places, consume_eq_some hring, List.count_append, List.count_cons]
        omega
  | stopped k =>
      simp only [Channel.step] at h
      split at h
      case h_2 => cases h
      case h_1 hk =>
        split at h
        · cases h
          refine hp.moved (List.perm_iff_count.mpr fun a => ?_) rfl rfl rfl
          have hset := (filterMap_set_perm hk Receive.id? (.returned none)).count_eq a
          simp only [Receive.id?, Option.toList_none, List.nil_append] at hset
          simp only [places, List.count_append]
          omega
        · cases h
  | extract k =>
      simp only [Channel.step] at h
      split at h
      case h_2 => cases h
      case h_1 id hk =>
        cases h
        refine hp.removed (List.perm_iff_count.mpr fun a => ?_) rfl rfl rfl
        have hset := (filterMap_set_perm hk Receive.id? (.returned (s.store id))).count_eq a
        simp only [Receive.id?, Option.toList_some, Option.toList_none, List.nil_append,
          List.count_append, List.count_cons, List.count_nil] at hset
        simp only [places, List.count_append, List.count_cons]
        omega
  | shutdown =>
      cases h
      refine hp.moved (List.perm_iff_count.mpr fun a => ?_) rfl rfl rfl
      simp only [places, Ring.shutdown, List.count_append, List.count_nil]
      omega
  | drain =>
      cases h
      refine hp.moved ?_ rfl rfl rfl
      simp only [places, shutdown_drain_buffered]
      exact List.Perm.refl _
  | insertOther m =>
      cases h
      have hne : ∀ id ∈ s.inserted, id ≠ s.counter := fun id hid => Nat.ne_of_lt (hp.bounded id hid)
      refine ⟨hp.nodup, hp.inserted, fun id hid => ?_, fun id hid => ?_⟩
      · simp only [Function.update_of_ne (hne id hid)]
        exact hp.present id hid
      · exact Nat.lt_succ_of_lt (hp.bounded id hid)
  | extractOther id =>
      simp only [Channel.step] at h
      split at h
      · cases h
      · next hother =>
          cases h
          refine ⟨hp.nodup, hp.inserted, fun k hk => ?_, hp.bounded⟩
          have hne : k ≠ id := fun heq => hother (heq ▸ hk)
          simp only [Function.update_of_ne hne]
          exact hp.present k hk

theorem Placed.initial (h : (system (α := α)).init s) : Placed s := by
  obtain ⟨hring, hsends, hreceives, hinserted, hrefused, hdiscarded⟩ := h
  have hplaces : places s = [] := by
    simp [places, hring, hsends, hreceives, hrefused, hdiscarded, Ring.new]
  refine ⟨?_, ?_, ?_, ?_⟩
  · rw [hplaces]
    exact List.nodup_nil
  · rw [hplaces]
    exact nofun
  · rw [hinserted]
    exact nofun
  · rw [hinserted]
    exact nofun

theorem reachable_placed {ok : State α → Label α → Prop} (hs : system.Reach ok s) : Placed s := by
  refine hs.invariant ?_ ?_
  · intro s h
    exact .initial h
  · intro s l s' hp _ hstep
    exact hp.step hstep

/-- What is left in the store when no call has a message in its hands. -/
theorem stranded {ok : State α → Label α → Prop} (hs : system.Reach ok s) (hq : Quiet s) {id : Nat}
    (hid : id ∈ s.inserted) :
    (s.store id).isSome ↔ id ∈ s.ring.buffered ∨ id ∈ s.refused ∨ id ∈ s.discarded := by
  have hsends : s.sends.filterMap Send.id? = [] := by
    refine List.filterMap_eq_nil_iff.mpr fun x hx => ?_
    obtain ⟨sent, rfl⟩ := hq.1 x hx
    rfl
  have hreceives : s.receives.filterMap Receive.id? = [] :=
    List.filterMap_eq_nil_iff.mpr hq.2
  rw [(reachable_placed hs).present id hid]
  simp [places, hsends, hreceives]

/-- A step that strands nothing: no send is refused, and a shutdown finds the buffer empty. -/
def Kept (s : State α) : Label α → Prop
  | .refused _ => False
  | .shutdown => s.ring.buffered = []
  | _ => True

theorem kept_none (hs : system.Reach Kept s) : s.refused = [] ∧ s.discarded = [] := by
  refine hs.invariant (I := fun s => s.refused = [] ∧ s.discarded = []) ?_ ?_
  · rintro s ⟨-, -, -, -, hrefused, hdiscarded⟩
    exact ⟨hrefused, hdiscarded⟩
  · intro s l s' ⟨hrefused, hdiscarded⟩ hkept hstep
    cases l with
    | refused k => exact hkept.elim
    | shutdown =>
        cases hstep
        have hempty : s.ring.buffered = [] := hkept
        exact ⟨hrefused, by rw [hdiscarded, hempty]; rfl⟩
    | send m =>
        simp only [system, Channel.step] at hstep
        split at hstep
        · cases hstep
        · cases hstep
          exact ⟨hrefused, hdiscarded⟩
    | produced k =>
        simp only [system, Channel.step] at hstep
        split at hstep
        · obtain ⟨ring, -, rfl⟩ := Option.map_eq_some_iff.mp hstep
          exact ⟨hrefused, hdiscarded⟩
        · cases hstep
    | receive =>
        cases hstep
        exact ⟨hrefused, hdiscarded⟩
    | consumed k =>
        simp only [system, Channel.step] at hstep
        split at hstep
        · obtain ⟨x, -, rfl⟩ := Option.map_eq_some_iff.mp hstep
          exact ⟨hrefused, hdiscarded⟩
        · cases hstep
    | stopped k =>
        simp only [system, Channel.step] at hstep
        split at hstep
        · split at hstep
          · cases hstep
            exact ⟨hrefused, hdiscarded⟩
          · cases hstep
        · cases hstep
    | extract k =>
        simp only [system, Channel.step] at hstep
        split at hstep
        · cases hstep
          exact ⟨hrefused, hdiscarded⟩
        · cases hstep
    | drain =>
        cases hstep
        exact ⟨hrefused, hdiscarded⟩
    | insertOther m =>
        cases hstep
        exact ⟨hrefused, hdiscarded⟩
    | extractOther id =>
        simp only [system, Channel.step] at hstep
        split at hstep
        · cases hstep
        · cases hstep
          exact ⟨hrefused, hdiscarded⟩

/-- In runs without a refused send and without a shutdown of a buffer that is not empty, the
messages of the channel in the store are those that can be received. -/
theorem none_stranded (hs : system.Reach Kept s) (hq : Quiet s) :
    (∀ id ∈ s.inserted, (s.store id).isSome ↔ id ∈ s.ring.buffered) ∧
      ∀ id ∈ s.ring.buffered, id ∈ s.inserted := by
  have hplaced := reachable_placed hs
  refine ⟨fun id hid => ?_, fun id hid => hplaced.inserted id (List.mem_append_left _ hid)⟩
  obtain ⟨hrefused, hdiscarded⟩ := kept_none hs
  rw [stranded hs hq hid, hrefused, hdiscarded]
  simp

end Steps

/-- A message of a channel. -/
def oneMessage : Message Nat := ⟨some 7, ⟨fun _ => 0, false⟩, false, false⟩

/-- A new channel on an empty store. -/
def State.new : State Nat := ⟨0, fun _ => none, .new, [], [], [], [], []⟩

theorem new_reach (ok : State Nat → Label Nat → Prop) : system.Reach ok State.new :=
  .init ⟨rfl, rfl, rfl, rfl, rfl, rfl⟩

/-- A message is sent and not yet received. -/
theorem none_stranded_sent :
    ∃ s : State Nat, system.Reach Kept s ∧ Quiet s ∧ s.inserted = [0] ∧ s.ring.buffered = [0] ∧
      (∀ id ∈ s.inserted, (s.store id).isSome ↔ id ∈ s.ring.buffered) ∧
      ∀ id ∈ s.ring.buffered, id ∈ s.inserted := by
  have hrun : ∃ s, [Label.send oneMessage, .produced 0].foldlM (fun s l => step l s) State.new
      = some s ∧ s.sends = [.returned true] ∧ s.receives = [] ∧ s.inserted = [0] ∧
      s.ring.buffered = [0] := ⟨_, rfl, rfl, rfl, rfl, rfl⟩
  obtain ⟨s, hrun, hsends, hreceives, hinserted, hbuffered⟩ := hrun
  have hreach : system.Reach Kept s := by
    refine (new_reach Kept).exec (fun l hl s₁ s₂ h => ⟨?_, h⟩) hrun
    rcases List.mem_pair.mp hl with rfl | rfl
    · trivial
    · trivial
  have hquiet : Quiet s := by
    refine ⟨fun x hx => ?_, fun x hx => ?_⟩
    · rw [hsends] at hx
      exact ⟨true, List.mem_singleton.mp hx⟩
    · rw [hreceives] at hx
      cases hx
  exact ⟨s, hreach, hquiet, hinserted, hbuffered, none_stranded hreach hquiet⟩

/-- A send on a channel that was shut down returns false and leaves its message in the store. -/
theorem refused_send_strands :
    ∃ s : State Nat, system.Reachable s ∧ s.sends = [.returned false] ∧ s.receives = [] ∧
      s.inserted = [0] ∧ s.ring.buffered = [] ∧ (s.store 0).isSome := by
  have hrun : ∃ s, [Label.shutdown, .send oneMessage, .refused 0].foldlM (fun s l => step l s)
      State.new = some s ∧ s.sends = [.returned false] ∧ s.receives = [] ∧ s.inserted = [0] ∧
      s.ring.buffered = [] ∧ (s.store 0).isSome := ⟨_, rfl, rfl, rfl, rfl, rfl, rfl⟩
  obtain ⟨s, hrun, hfacts⟩ := hrun
  exact ⟨s, (new_reach _).exec (fun l _ s₁ s₂ h => ⟨trivial, h⟩) hrun, hfacts⟩

end Channel

end Rapidsmpf.Streaming
