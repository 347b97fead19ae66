import Mathlib
import Rapidsmpf.Streaming.Channel

/-!
# The output channels of a fanout

An output channel with its consumer, as the fanout and the consumer see it: the messages the ring
buffer has accepted, those the consumer has received, and whether the consumer has shut the
channel down or has seen its end. The consumer acts at any time and at any speed.
-/

namespace Rapidsmpf.Streaming

universe u

variable {α : Type u}

/-- An output channel and its consumer. -/
structure Outlet (α : Type u) where
  ring : Ring α
  sent : List α
  received : List α
  shut : Bool
  ended : Bool

/-- What a consumer does: it receives a message, it is told that nothing will come any more, or
it shuts the channel down. -/
inductive Consumer where
  | receive
  | finish
  | shutdown

namespace Outlet

def new : Outlet α := ⟨.new, [], [], false, false⟩

/-- The channel accepts a message. -/
def produce (o : Outlet α) (m : α) : Option (Outlet α) :=
  (o.ring.produce m).map fun ring => { o with ring, sent := o.sent ++ [m] }

/-- A step of the consumer. -/
def act (o : Outlet α) : Consumer → Option (Outlet α)
  | .receive => o.ring.consume.map fun (m, ring) => { o with ring, received := o.received ++ [m] }
  | .finish => if o.ring.exhausted then some { o with ended := true } else none
  | .shutdown => some { o with ring := o.ring.shutdown, shut := true }

/-- The fanout starts to drain the channel. -/
def drain (o : Outlet α) : Outlet α := { o with ring := o.ring.shutdownDrain }

/-- The fanout shuts the channel down when it leaves. -/
def close (o : Outlet α) : Outlet α := { o with ring := o.ring.shutdown }

/-- What was received, with what is buffered, is a beginning of what was accepted, and all of it
while the channel is not stopped. -/
structure Sound (o : Outlet α) : Prop where
  delivered : o.received ++ o.ring.buffered <+: o.sent
  open_ : o.ring.state ≠ .stopped → o.received ++ o.ring.buffered = o.sent
  stopped : o.ring.state = .stopped → o.ring.buffered = []
  shut : o.shut = true → o.ring.state = .stopped
  ended : o.ended = true → o.ring.exhausted = true

variable {o o' : Outlet α} {m : α}

theorem Sound.new : (Outlet.new : Outlet α).Sound :=
  ⟨List.prefix_rfl, fun _ => rfl, nofun, nofun, nofun⟩

theorem produce_eq_some (h : o.produce m = some o') :
    o.ring.state = .running ∧ o' = { o with
      ring := { o.ring with buffered := o.ring.buffered ++ [m] }, sent := o.sent ++ [m] } := by
  obtain ⟨ring, hring, rfl⟩ := Option.map_eq_some_iff.mp h
  rw [Ring.produce] at hring
  split at hring
  · next hrunning =>
      cases hring
      exact ⟨hrunning.1, rfl⟩
  · cases hring

theorem Sound.produce (ho : o.Sound) (h : o.produce m = some o') : o'.Sound := by
  obtain ⟨hrunning, rfl⟩ := produce_eq_some h
  have hall := ho.open_ (by rw [hrunning]; exact nofun)
  have happend : o.received ++ (o.ring.buffered ++ [m]) = o.sent ++ [m] := by
    rw [← List.append_assoc, hall]
  refine ⟨?_, fun _ => happend, fun hstopped => ?_, ho.shut, fun hended => ?_⟩
  · exact happend ▸ List.prefix_rfl
  · rw [hrunning] at hstopped
    cases hstopped
  · have hexhausted := ho.ended hended
    simp [Ring.exhausted, hrunning] at hexhausted

/-- The consumer changes neither what was accepted nor, unless it shuts the channel down, whether
the channel is open. -/
theorem act_eq_some {c : Consumer} (h : o.act c = some o') :
    o'.sent = o.sent ∧ (o.shut = true → o'.shut = true) ∧
      (o'.shut = true ∨ o'.shut = o.shut ∧ o'.ring.state = o.ring.state) ∧
      (o.ring.state = .stopped → o'.ring.state = .stopped) := by
  cases c with
  | receive =>
      obtain ⟨⟨m, ring⟩, hring, rfl⟩ := Option.map_eq_some_iff.mp h
      rw [Ring.consume] at hring
      split at hring
      · cases hring
        exact ⟨rfl, fun h => h, .inr ⟨rfl, rfl⟩, fun h => h⟩
      · cases hring
  | finish =>
      simp only [act] at h
      split at h
      · cases h
        exact ⟨rfl, fun h => h, .inr ⟨rfl, rfl⟩, fun h => h⟩
      · cases h
  | shutdown =>
      cases h
      exact ⟨rfl, fun _ => rfl, .inl rfl, fun _ => rfl⟩

/-- What was received stays received. -/
theorem act_received {c : Consumer} (h : o.act c = some o') : o.received <+: o'.received := by
  cases c with
  | receive =>
      obtain ⟨⟨m, ring⟩, -, rfl⟩ := Option.map_eq_some_iff.mp h
      exact List.prefix_append _ _
  | finish =>
      simp only [act] at h
      split at h
      · cases h
        exact List.prefix_rfl
      · cases h
  | shutdown =>
      cases h
      exact List.prefix_rfl

theorem Sound.stop (ho : o.Sound) (shut : Bool) :
    ({ o with ring := o.ring.shutdown, shut } : Outlet α).Sound := by
  refine ⟨?_, fun h => absurd rfl h, fun _ => rfl, fun _ => rfl, fun _ => rfl⟩
  refine List.IsPrefix.trans ?_ ho.delivered
  simp [Ring.shutdown]

theorem Sound.act {c : Consumer} (ho : o.Sound) (h : o.act c = some o') : o'.Sound := by
  cases c with
  | receive =>
      obtain ⟨⟨m, ring⟩, hring, rfl⟩ := Option.map_eq_some_iff.mp h
      rw [Ring.consume] at hring
      split at hring
      · next x rest hbuffered =>
          cases hring
          have hsame : (o.received ++ [m]) ++ rest = o.received ++ o.ring.buffered := by
            rw [hbuffered, List.append_assoc]
            rfl
          refine ⟨?_, fun hopen => ?_, fun hstopped => ?_, ho.shut, fun hended => ?_⟩
          · rw [hsame]
            exact ho.delivered
          · rw [hsame]
            exact ho.open_ hopen
          · have hempty := ho.stopped hstopped
            rw [hbuffered] at hempty
            cases hempty
          · have hexhausted := ho.ended hended
            simp [Ring.exhausted, hbuffered] at hexhausted
      · cases hring
  | finish =>
      simp only [Outlet.act] at h
      split at h
      · next hexhausted =>
          cases h
          exact ⟨ho.delivered, ho.open_, ho.stopped, ho.shut, fun _ => hexhausted⟩
      · cases h
  | shutdown =>
      cases h
      exact ho.stop true

theorem Sound.close (ho : o.Sound) : o.close.Sound :=
  ho.stop o.shut

theorem Sound.drain (ho : o.Sound) : o.drain.Sound := by
  rw [Outlet.drain, Ring.shutdownDrain]
  split
  · next hrunning =>
      have hall := ho.open_ (by rw [hrunning]; exact fun h => by cases h)
      refine ⟨ho.delivered, fun _ => hall, (fun h => by cases h), fun hshut => ?_, fun hended => ?_⟩
      · cases hrunning.symm.trans (ho.shut hshut)
      · have hexhausted := ho.ended hended
        simp [Ring.exhausted, hrunning] at hexhausted
  · exact ho

/-- What was received is a beginning of what was accepted. -/
theorem Sound.received_begins (ho : o.Sound) : o.received <+: o.sent :=
  (List.prefix_append _ _).trans ho.delivered

/-- A consumer that has received all of a stream has done so after its next steps. -/
theorem Sound.act_received_all {c : Consumer} {input : List α} (ho : o.Sound)
    (hsent : o.sent <+: input) (hall : o.received = input) (h : o.act c = some o') :
    o'.received = input := by
  have hsent' : o'.received <+: input := by
    refine (ho.act h).received_begins.trans ?_
    rw [(act_eq_some h).1]
    exact hsent
  exact hsent'.eq_of_length_le (hall ▸ (act_received h).length_le)

/-- Of a channel that is not stopped and has nothing buffered everything was received. -/
theorem Sound.received_all (ho : o.Sound) (hopen : o.ring.state ≠ .stopped)
    (hempty : o.ring.buffered = []) : o.received = o.sent := by
  have hall := ho.open_ hopen
  rwa [hempty, List.append_nil] at hall

end Outlet

end Rapidsmpf.Streaming
