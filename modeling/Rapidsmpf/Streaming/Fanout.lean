import Rapidsmpf.Streaming.BoundedFanout
import Rapidsmpf.Streaming.Purging

/-!
# Fanout delivers its input

Both policies of `fanout` against the same statement: whatever the consumers do, what each of them
receives is a beginning of the input, and it is all of the input when the consumer is told that
nothing will come, it has not shut its channel down, and no copy has thrown. With the unbounded
policy an exception ends one send task, and the other outputs are served on; with the bounded one
it ends the actor. The purge of the unbounded policy never removes a message that a send task is
about to copy.
-/

namespace Rapidsmpf.Streaming.Fanout

open Protocol

universe u

variable {α : Type u}

/-- What the consumer of an output gets of the input, in the absence of an exception. -/
structure Delivers (input : List α) (threw : Bool) (o : Outlet α) : Prop where
  received_begins : o.received <+: input
  complete : o.ended = true → o.shut = false → threw = false → o.received = input

/-- Fanout delivers its input to every output. -/
theorem delivers_input (input : List α) :
    (∀ s, (Bounded.system input).Reachable s →
      ∀ o ∈ s.outputs, Delivers input s.threw o.outlet) ∧
    ∀ s, (Unbounded.system input).Reachable s → ∀ o ∈ s.outputs,
      Delivers input o.threw o.outlet ∧
        ∀ id ids available, o.task = .sending (id :: ids) available →
          (s.shared.store id).isSome := by
  refine ⟨fun s hs o ho => ?_, fun s hs o ho => ⟨?_, fun id ids available htask => ?_⟩⟩
  · obtain ⟨passed, -, hserved⟩ := Bounded.reachable_sound hs
    have ho := hserved o ho
    exact ⟨ho.sound.received_begins.trans ho.sent, ho.received_input⟩
  · have hs := Unbounded.reachable_sound hs
    have ho := hs.outputs o ho
    exact ⟨ho.received_begins hs.shared, ho.received_input⟩
  · have hs := Unbounded.reachable_sound hs
    obtain ⟨m, hm, -⟩ := (hs.outputs o ho).next_present hs.shared htask
    rw [hm]
    rfl

/-- Two outputs of the bounded fanout, two messages in the input. -/
def boundedStart : Bounded.State Nat :=
  ⟨[7, 8], .receiving, [⟨true, .idle, .new⟩, ⟨true, .idle, .new⟩], false⟩

theorem boundedStart_init : (Bounded.system [7, 8]).init boundedStart := by
  refine ⟨rfl, rfl, rfl, fun o ho => ?_⟩
  rcases List.mem_pair.mp ho with rfl | rfl
  · rfl
  · rfl

/-- One message goes to both consumers. -/
def boundedRound : List Bounded.Label :=
  [.receive, .filter, .filter, .filter, .copy 0, .sent 0, .move, .sent 1, .next,
    .consumer 0 .receive, .consumer 1 .receive]

/-- Two outputs of the unbounded fanout, two messages in the input. -/
def unboundedStart : Unbounded.State Nat where
  shared := ⟨[7, 8], [], false, [], 0, .waiting none none, 0, fun _ => none⟩
  outputs := [⟨some 0, .waiting, .new, false⟩, ⟨some 0, .waiting, .new, false⟩]

theorem unboundedStart_init : (Unbounded.system [7, 8]).init unboundedStart := by
  refine ⟨rfl, rfl, rfl, rfl, rfl, rfl, fun o ho => ?_⟩
  rcases List.mem_pair.mp ho with rfl | rfl
  · rfl
  · rfl

/-- Two messages through both policies, up to the end at the first consumer. The other output of
the unbounded fanout has not yet sent any. -/
theorem delivers_two_messages :
    (∃ s, (Bounded.system [7, 8]).Reachable s ∧ ∃ o ∈ s.outputs, o.outlet.ended = true ∧
      o.outlet.shut = false ∧ s.threw = false ∧ o.outlet.received = [7, 8]) ∧
    ∃ s, (Unbounded.system [7, 8]).Reachable s ∧ ∃ o ∈ s.outputs, o.outlet.ended = true ∧
      o.outlet.shut = false ∧ o.threw = false ∧ o.outlet.received = [7, 8] := by
  constructor
  · have hrun : ∃ s, (boundedRound ++ boundedRound ++
          [Bounded.Label.receive, .drain 0, .consumer 0 .finish]).foldlM
          (fun s l => Bounded.step l s) boundedStart = some s ∧
        ∃ o, s.outputs[0]? = some o ∧ o.outlet.ended = true ∧ o.outlet.shut = false ∧
          s.threw = false := ⟨_, rfl, _, rfl, rfl, rfl, rfl⟩
    obtain ⟨s, hrun, o, hfirst, hended, hshut, hthrew⟩ := hrun
    have hreach : (Bounded.system [7, 8]).Reachable s :=
      (System.Reach.init boundedStart_init).exec (fun l _ s₁ s₂ h => ⟨trivial, h⟩) hrun
    have ho := List.mem_of_getElem? hfirst
    have hdelivers := (delivers_input [7, 8]).1 s hreach o ho
    exact ⟨s, hreach, o, ho, hended, hshut, hthrew, hdelivers.complete hended hshut hthrew⟩
  · have hrun : ∃ s, (Unbounded.stageOne ++ Unbounded.batch 0 ++
          [Unbounded.Label.consumer 0 .receive] ++ Unbounded.stageOne ++ Unbounded.batch 0 ++
          [Unbounded.Label.recv .request, .recv .receive, .recv .stage, .send 0 .take] ++
          Unbounded.windDown 0 ++ [Unbounded.Label.consumer 0 .finish]).foldlM
          (fun s l => Unbounded.step l s) unboundedStart = some s ∧
        ∃ o, s.outputs[0]? = some o ∧ o.outlet.ended = true ∧ o.outlet.shut = false ∧
          o.threw = false := ⟨_, rfl, _, rfl, rfl, rfl, rfl⟩
    obtain ⟨s, hrun, o, hfirst, hended, hshut, hthrew⟩ := hrun
    have hreach : (Unbounded.system [7, 8]).Reachable s :=
      (System.Reach.init unboundedStart_init).exec (fun l _ s₁ s₂ h => ⟨trivial, h⟩) hrun
    have ho := List.mem_of_getElem? hfirst
    have hdelivers := ((delivers_input [7, 8]).2 s hreach o ho).1
    exact ⟨s, hreach, o, ho, hended, hshut, hthrew, hdelivers.complete hended hshut hthrew⟩

/-- A send task whose copy throws shuts its channel down: the consumer, which never did so, is
told that nothing will come and has not received the input. -/
theorem copy_exception_truncates :
    ∃ s : Unbounded.State Nat, (Unbounded.system [7]).Reachable s ∧ ∃ o ∈ s.outputs,
      o.outlet.ended = true ∧ o.outlet.shut = false ∧ o.outlet.received ≠ [7] := by
  have hrun : ∃ s, (Unbounded.stageOne ++ [Unbounded.Label.send 0 .take, .send 0 .copyThrows,
        .send 0 .leave, .send 0 .close, .consumer 0 .finish]).foldlM
        (fun s l => Unbounded.step l s) Unbounded.oneMessage = some s ∧
      ∃ o, s.outputs[0]? = some o ∧ o.outlet.ended = true ∧ o.outlet.shut = false ∧
        o.outlet.received = [] := ⟨_, rfl, _, rfl, rfl, rfl, rfl⟩
  obtain ⟨s, hrun, o, hfirst, hended, hshut, hreceived⟩ := hrun
  have hreach : (Unbounded.system [7]).Reachable s :=
    (System.Reach.init Unbounded.oneMessage_init).exec (fun l _ s₁ s₂ h => ⟨trivial, h⟩) hrun
  refine ⟨s, hreach, o, List.mem_of_getElem? hfirst, hended, hshut, ?_⟩
  rw [hreceived]
  exact nofun

end Rapidsmpf.Streaming.Fanout
