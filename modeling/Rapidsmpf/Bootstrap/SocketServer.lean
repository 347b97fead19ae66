import Mathlib
import Rapidsmpf.Lib.GenerationBarrier
import Rapidsmpf.Memory.Buffer

/-!
# The barriers of the socket server

`SocketServer::handle_connection` in `bootstrap/socket_backend.cpp`, from the point where the
connection is authenticated: one handler thread for each rank, which takes one command after the
other. BARRIER and SYNC are the same code on two sets of members, so the kind of the command is a
parameter. A section under the state mutex is one step. A waiting handler may wake at any time and
then evaluates its predicate under the mutex.

The generations are of type `int`. An increment that overflows has no meaning in C++ and is no step
here.
-/

namespace Rapidsmpf.Bootstrap.Socket

open Protocol

/-- The commands that wait for all ranks. -/
inductive Kind where
  | barrier
  | sync
deriving DecidableEq

/-- `barrier_gen` and `barrier_count`, or `sync_gen` and `sync_count`. -/
structure Counter where
  gen : Nat
  count : Nat

/-- Where the handler of a connection is. -/
inductive Handler where
  /-- In `read_line`. -/
  | reading
  /-- Blocked in the wait, with the generation it has read. -/
  | waiting (kind : Kind) (gen : Nat)
  /-- Woken, the predicate not yet evaluated. -/
  | awake (kind : Kind) (gen : Nat)
  /-- The mutex is released, the reply not yet written. -/
  | replying (kind : Kind)
deriving DecidableEq

/-- `SocketServer::State` and the handlers. The last two members count, for each connection, the
commands that were taken and those that were answered. -/
structure State (n : Nat) where
  kv : Bytes → Option Bytes
  counter : Kind → Counter
  handler : Fin n → Handler
  issued : Kind → Fin n → Nat
  answered : Kind → Fin n → Nat

inductive Action where
  | put (key value : Bytes)
  | get (key : Bytes)
  | command (kind : Kind)
  | wake
  | recheck
  | reply

/-- `notify_all`. -/
def Handler.notify (kind : Kind) (handler : Handler) : Handler :=
  match handler with
  | .waiting k gen => if k = kind then .awake k gen else handler
  | _ => handler

variable {n : Nat}

/-- The section under the mutex of a BARRIER or SYNC. -/
def command (kind : Kind) (i : Fin n) (s : State n) : Option (State n) :=
  let counter := s.counter kind
  let issued := Function.update s.issued kind
    (Function.update (s.issued kind) i (s.issued kind i + 1))
  if counter.count + 1 = n then
    if counter.gen + 1 < 2 ^ 31 then
      some { s with
        counter := Function.update s.counter kind ⟨counter.gen + 1, 0⟩
        handler := Function.update (fun j => (s.handler j).notify kind) i (.replying kind)
        issued }
    else none
  else
    some { s with
      counter := Function.update s.counter kind ⟨counter.gen, counter.count + 1⟩
      handler := Function.update s.handler i (.waiting kind counter.gen)
      issued }

/-- A step of a handler. -/
def handle (i : Fin n) (a : Action) (s : State n) : Option (State n) :=
  match a, s.handler i with
  | .put key value, .reading =>
      -- ERROR only rank 0 may PUT
      if i.val ≠ 0 then some s else some { s with kv := Function.update s.kv key (some value) }
  | .get _, .reading => some s
  | .command kind, .reading => command kind i s
  | .wake, .waiting kind gen =>
      some { s with handler := Function.update s.handler i (.awake kind gen) }
  | .recheck, .awake kind gen =>
      some { s with
        handler := Function.update s.handler i
          (if (s.counter kind).gen ≠ gen then .replying kind else .waiting kind gen) }
  | .reply, .replying kind =>
      some { s with
        handler := Function.update s.handler i .reading
        answered := Function.update s.answered kind
          (Function.update (s.answered kind) i (s.answered kind i + 1)) }
  | _, _ => none

/-- The server of `n` authenticated connections. -/
def system (n : Nat) : System (State n) (Fin n × Action) where
  init s := (∀ key, s.kv key = none) ∧ (∀ kind, s.counter kind = ⟨0, 0⟩) ∧
    (∀ i, s.handler i = .reading) ∧ ∀ kind i, s.issued kind i = 0 ∧ s.answered kind i = 0
  step s l s' := handle l.1 l.2 s = some s'

/-! ## Two generation barriers -/

open GenerationBarrier (Stage)

/-- The stage of a handler in the barrier of one kind. -/
def Handler.stage (kind : Kind) : Handler → Stage
  | .reading => .outside
  | .waiting k gen => if k = kind then .waiting gen else .outside
  | .awake k gen => if k = kind then .awake gen else .outside
  | .replying k => if k = kind then .released else .outside

/-- The server as the barrier of one kind of command. -/
def State.barrier (s : State n) (kind : Kind) : GenerationBarrier.State (Fin n) where
  gen := (s.counter kind).gen
  count := (s.counter kind).count
  stage i := (s.handler i).stage kind
  entered := s.issued kind
  left := s.answered kind

theorem stage_update (f : Fin n → Handler) (i : Fin n) (h : Handler) (kind : Kind) :
    (fun j => (Function.update f i h j).stage kind)
      = Function.update (fun j => (f j).stage kind) i (h.stage kind) := by
  funext j
  rcases eq_or_ne j i with rfl | hne
  · simp
  · simp [Function.update_of_ne hne]

theorem stage_notify_self (kind : Kind) (h : Handler) :
    (h.notify kind).stage kind = (h.stage kind).notify := by
  cases h with
  | waiting k gen =>
      by_cases hk : k = kind <;> simp [Handler.notify, Handler.stage, Stage.notify, hk]
  | reading => rfl
  | awake k gen => by_cases hk : k = kind <;> simp [Handler.notify, Handler.stage, Stage.notify, hk]
  | replying k => by_cases hk : k = kind <;> simp [Handler.notify, Handler.stage, Stage.notify, hk]

theorem stage_notify_other {kind kind' : Kind} (hne : kind ≠ kind') (h : Handler) :
    (h.notify kind).stage kind' = h.stage kind' := by
  cases h with
  | waiting k gen =>
      by_cases hk : k = kind
      · subst hk
        simp [Handler.notify, Handler.stage, hne]
      · simp [Handler.notify, hk]
  | _ => rfl

variable {s s' : State n} {i : Fin n}

/-- A handler that is busy with another kind of command is outside of the barrier. -/
theorem barrier_unmoved {h : Handler} {k : Kind} (hold : (s.handler i).stage k = .outside)
    (hnew : h.stage k = .outside) :
    (fun j => (Function.update s.handler i h j).stage k) = (s.barrier k).stage := by
  rw [stage_update, hnew]
  exact Function.update_eq_self_iff.mpr hold.symm

/-- The section under the mutex is an entry into the barrier of its kind. -/
theorem command_barrier {kind : Kind} (hreading : s.handler i = .reading)
    (h : command kind i s = some s') (k : Kind) :
    s'.barrier k = s.barrier k ∨
      GenerationBarrier.step (i, .enter) (s.barrier k) = some (s'.barrier k) := by
  have houtside : ∀ k, (s.barrier k).stage i = .outside := fun k => by
    show (s.handler i).stage k = .outside
    rw [hreading]
    rfl
  unfold command at h
  dsimp only at h
  split at h
  · next hlast =>
      split at h
      · cases h
        rcases eq_or_ne k kind with rfl | hne
        · right
          rw [GenerationBarrier.step_enter_last (houtside k)
            (by rw [Fintype.card_fin]; exact hlast)]
          simp only [State.barrier, Function.update_self, stage_update, stage_notify_self]
          simp [Handler.stage]
        · left
          simp only [State.barrier, Function.update_of_ne hne, stage_update,
            stage_notify_other hne.symm, GenerationBarrier.State.mk.injEq, true_and, and_true]
          refine Function.update_eq_self_iff.mpr ?_
          exact (if_neg hne.symm).trans (houtside k).symm
      · cases h
  · next hmore =>
      cases h
      rcases eq_or_ne k kind with rfl | hne
      · right
        rw [GenerationBarrier.step_enter_more (houtside k) (by rw [Fintype.card_fin]; exact hmore)]
        simp only [State.barrier, Function.update_self, stage_update]
        simp [Handler.stage]
      · left
        have hstage := barrier_unmoved (houtside k)
          (show (Handler.waiting kind (s.counter kind).gen).stage k = .outside from if_neg hne.symm)
        simp only [State.barrier, Function.update_of_ne hne, GenerationBarrier.State.mk.injEq,
          true_and, and_true]
        exact hstage

/-- Every step of a handler is a step of each barrier, or leaves it as it is. -/
theorem handle_barrier {a : Action} (h : handle i a s = some s') (k : Kind) :
    s'.barrier k = s.barrier k ∨
      ∃ b, GenerationBarrier.step (i, b) (s.barrier k) = some (s'.barrier k) := by
  unfold handle at h
  split at h
  · split at h <;> cases h <;> exact .inl rfl
  · cases h
    exact .inl rfl
  · next kind hreading => exact (command_barrier hreading h k).imp_right fun hb => ⟨.enter, hb⟩
  · next kind gen hwaiting =>
      cases h
      have hstage : (s.barrier k).stage i = (Handler.waiting kind gen).stage k :=
        congrArg (Handler.stage k) hwaiting
      rcases eq_or_ne kind k with rfl | hne
      · right
        refine ⟨.wake, (GenerationBarrier.step_wake (hstage.trans (if_pos rfl))).trans ?_⟩
        simp only [State.barrier, stage_update]
        simp [Handler.stage]
      · left
        have hmoved := barrier_unmoved (hstage.trans (if_neg hne))
          (show (Handler.awake kind gen).stage k = .outside from if_neg hne)
        simp only [State.barrier, GenerationBarrier.State.mk.injEq, true_and, and_true]
        exact hmoved
  · next kind gen hawake =>
      cases h
      have hstage : (s.barrier k).stage i = (Handler.awake kind gen).stage k :=
        congrArg (Handler.stage k) hawake
      rcases eq_or_ne kind k with rfl | hne
      · right
        refine ⟨.recheck, (GenerationBarrier.step_recheck (hstage.trans (if_pos rfl))).trans ?_⟩
        simp only [State.barrier, stage_update]
        by_cases hgen : (s.counter kind).gen = gen <;> simp [hgen, Handler.stage]
      · left
        have hmoved := barrier_unmoved (hstage.trans (if_neg hne))
          (show Handler.stage k (if (s.counter kind).gen ≠ gen then .replying kind
            else .waiting kind gen) = .outside by split <;> exact if_neg hne)
        simp only [State.barrier, GenerationBarrier.State.mk.injEq, true_and, and_true]
        exact hmoved
  · next kind hreplying =>
      cases h
      have hstage : (s.barrier k).stage i = (Handler.replying kind).stage k :=
        congrArg (Handler.stage k) hreplying
      rcases eq_or_ne kind k with rfl | hne
      · right
        refine ⟨.leave, (GenerationBarrier.step_leave (hstage.trans (if_pos rfl))).trans ?_⟩
        simp only [State.barrier, stage_update]
        simp [Handler.stage]
      · left
        have hmoved := barrier_unmoved (hstage.trans (if_neg hne))
          (show Handler.reading.stage k = .outside from rfl)
        simp only [State.barrier, GenerationBarrier.State.mk.injEq, true_and, and_true,
          Function.update_of_ne hne.symm]
        exact hmoved
  · cases h

/-- In every run of the server each kind of command is a generation barrier. -/
theorem reachable_barrier (hs : (system n).Reachable s) (k : Kind) :
    (GenerationBarrier.system (Fin n)).Reachable (s.barrier k) := by
  refine hs.invariant (I := fun s => (GenerationBarrier.system (Fin n)).Reachable (s.barrier k))
    (fun s hinit => .of_init ?_) fun s l s' hs hstep => ?_
  · obtain ⟨-, hcounter, hhandler, hcounts⟩ := hinit
    refine ⟨?_, ?_, fun i => ⟨?_, (hcounts k i).1, (hcounts k i).2⟩⟩
    · show (s.counter k).gen = 0
      rw [hcounter]
    · show (s.counter k).count = 0
      rw [hcounter]
    · show (s.handler i).stage k = .outside
      rw [hhandler]
      rfl
  · rcases handle_barrier hstep k with heq | ⟨b, hb⟩
    · rwa [heq]
    · exact hs.next hb

/-- For BARRIER and for SYNC, in every interleaving: a rank has no more commands answered than any
rank has issued; a handler whose command all ranks have issued as well is notified and its predicate
holds; and the count is in its range. -/
theorem commands_synchronize (hs : (system n).Reachable s) (kind : Kind) (i : Fin n) :
    (∀ j, s.answered kind i ≤ s.issued kind j) ∧
    (∀ gen, s.handler i = .waiting kind gen ∨ s.handler i = .awake kind gen →
      (∀ j, s.issued kind i ≤ s.issued kind j) →
        (s.counter kind).gen ≠ gen ∧ s.handler i = .awake kind gen) ∧
    (s.counter kind).count < n := by
  have hinv := GenerationBarrier.reachable_inv (reachable_barrier hs kind)
  refine ⟨hinv.left_le_entered i, fun gen hhandler hall => ?_, ?_⟩
  · have hstage : (s.barrier kind).stage i = .waiting gen ∨
        (s.barrier kind).stage i = .awake gen := by
      refine hhandler.imp (fun h => ?_) fun h => ?_
      · exact (congrArg (Handler.stage kind) h).trans (if_pos rfl)
      · exact (congrArg (Handler.stage kind) h).trans (if_pos rfl)
    obtain ⟨hne, hawake⟩ := hinv.wait_over hstage hall
    refine ⟨hne, hhandler.resolve_left fun hwaiting => ?_⟩
    have hcontra : (s.barrier kind).stage i = .waiting gen :=
      (congrArg (Handler.stage kind) hwaiting).trans (if_pos rfl)
    cases hcontra.symm.trans hawake
  · have hopen := hinv.open_ i
    rwa [Fintype.card_fin] at hopen

/-- Two connections that have sent nothing. -/
def twoRanks : State 2 :=
  ⟨fun _ => none, fun _ => ⟨0, 0⟩, fun _ => .reading, fun _ _ => 0, fun _ _ => 0⟩

/-- Rank 0 has its BARRIER answered, and has issued the next one, while the handler of rank 1 has
still to wake; rank 1 has not issued a SYNC. -/
theorem commands_synchronize_two :
    ∃ s : State 2, (system 2).Reachable s ∧ s.answered .barrier 0 = 1 ∧
      s.handler 1 = .awake .barrier 0 ∧ (s.counter .barrier).gen ≠ 0 := by
  have hrun : ∃ s, ([(1, .command .barrier), (0, .command .barrier), (0, .reply),
      (0, .command .barrier)] : List (Fin 2 × Action)).foldlM
        (fun s l => handle l.1 l.2 s) twoRanks = some s ∧ s.answered .barrier 0 = 1 ∧
      s.handler 1 = .awake .barrier 0 ∧ s.issued .barrier 1 = 1 ∧ s.issued .barrier 0 = 2 :=
    ⟨_, rfl, rfl, rfl, rfl, rfl⟩
  obtain ⟨s, hrun, hanswered, hawake, hone, hzero⟩ := hrun
  have hinit : (system 2).init twoRanks :=
    ⟨fun _ => rfl, fun _ => rfl, fun _ => rfl, fun _ _ => ⟨rfl, rfl⟩⟩
  have hreach : (system 2).Reachable s :=
    (System.Reach.init hinit).exec (fun l _ s₁ s₂ h => ⟨trivial, h⟩) hrun
  refine ⟨s, hreach, hanswered, hawake, ?_⟩
  refine ((commands_synchronize hreach .barrier 1).2.1 0 (.inr hawake) fun j => ?_).1
  rcases Fin.exists_fin_two.mp ⟨j, rfl⟩ with rfl | rfl
  · rw [hone, hzero]
    exact Nat.le_succ 1
  · exact le_rfl

end Rapidsmpf.Bootstrap.Socket
