import Rapidsmpf.Streaming.UnboundedFanout

/-!
# What the unbounded fanout leaves in the store

The receive task purges inside its loop only, up to the least entry at its last data request. When
it leaves the loop, the messages from `purgeIdx` on stay in the store, whatever the send tasks do
later: `store_eq_none_iff`. Everything is released in the runs in which every valid output had
caught up at the data request that was answered by the end of the input, and in which the outputs
do not all drop out while something is staged: `all_released`.
-/

namespace Rapidsmpf.Streaming.Unbounded

open Protocol

universe u

variable {α : Type u} {input : List α} {s : State α}

/-- All tasks have returned. -/
def State.Completed (s : State α) : Prop :=
  s.shared.recv = .returned ∧ ∀ o ∈ s.outputs, o.task = .returned

/-- With the end of the input in its hand: the least entry at the last request. -/
def Recv.atEnd : Recv α → Option Nat
  | .received processedMin none => some processedMin
  | _ => none

/-- The end of the input finds every valid output caught up at the request, and a receive task
that finds no valid output has staged nothing. -/
def CaughtUp (s : State α) : Label α → Prop
  | .recv .request => s.shared.recv.bound = none → (∀ o ∈ s.outputs, o.next = none) →
      s.shared.recvMsgIds = []
  | .recv .stage => ∀ processedMin ∈ s.shared.recv.atEnd,
      processedMin = s.shared.recvMsgIds.length
  | _ => True

instance (s : State α) : (l : Label α) → Decidable (CaughtUp s l)
  | .recv .request => inferInstanceAs (Decidable (_ → _ → _))
  | .recv .stage => inferInstanceAs (Decidable (∀ p ∈ s.shared.recv.atEnd, _))
  | .recv .receive | .recv .purge | .recv .loop | .recv .leave | .send _ _ | .consumer _ _
  | .insertOther _ => inferInstanceAs (Decidable True)

/-- What of the staged messages is released: those before the purge index. -/
theorem store_eq_none_iff (hs : (system input).Reachable s) {k id : Nat}
    (hid : s.shared.recvMsgIds[k]? = some id) :
    s.shared.store id = none ↔ k < s.shared.purgeIdx := by
  have hshared := (reachable_sound hs).shared
  constructor
  · intro hnone
    by_contra hge
    have hpresent := hshared.present k id (not_lt.mp hge) hid
    have hlt : k < s.shared.staged.length :=
      hshared.length ▸ (List.getElem?_eq_some_iff.mp hid).1
    rw [hnone, List.getElem?_eq_getElem hlt] at hpresent
    cases hpresent
  · exact fun hlt => hshared.gone k id hlt hid

/-- After the end of the input everything staged is released or about to be. -/
structure Releasing (s : Shared α) : Prop where
  ending : s.noMoreInput = true →
    s.recv = .purging s.recvMsgIds.length ∨ s.recv = .leaving ∨ s.recv = .returned
  left : s.recv = .leaving ∨ s.recv = .returned → s.purgeIdx = s.recvMsgIds.length

theorem Releasing.recvStep {nexts : List (Option Nat)} {l : RecvLabel} {s s' : Shared α}
    (hshared : Staged input s) (hs : Releasing s)
    (hrequest : l = .request → ∀ hi, s.recv = .waiting none hi → (∀ k, some k ∉ nexts) →
      s.recvMsgIds = [])
    (hstage : l = .stage → ∀ p, s.recv = .received p none → p = s.recvMsgIds.length)
    (h : recvStep nexts l s = some s') : Releasing s' := by
  -- the task has not seen the end of the input where it still waits, receives or stages
  have hmore : (∀ p, s.recv ≠ .purging p) → s.recv ≠ .leaving → s.recv ≠ .returned →
      s.noMoreInput = false := by
    intro hpurging hleaving hreturned
    rw [Bool.eq_false_iff]
    intro htrue
    rcases hs.ending htrue with hrecv | hrecv | hrecv
    · exact hpurging _ hrecv
    · exact hleaving hrecv
    · exact hreturned hrecv
  cases recvStep_cases h with
  | wait hrecv hlo =>
      have hfalse := hmore (by simp [hrecv]) (by simp [hrecv]) (by simp [hrecv])
      exact ⟨fun htrue => absurd htrue (by simp [hfalse]), by simp⟩
  | request hrecv hp =>
      have hfalse := hmore (by simp [hrecv]) (by simp [hrecv]) (by simp [hrecv])
      exact ⟨fun htrue => absurd htrue (by simp [hfalse]), by simp⟩
  | abandon hrecv hnone =>
      refine ⟨fun _ => .inr (.inl rfl), fun _ => ?_⟩
      have hempty := congrArg List.length (hrequest rfl _ hrecv hnone)
      exact hshared.purged.antisymm (hempty ▸ Nat.zero_le _)
  | receive hrecv hinput =>
      have hfalse := hmore (by simp [hrecv]) (by simp [hrecv]) (by simp [hrecv])
      exact ⟨fun htrue => absurd htrue (by simp [hfalse]), by simp⟩
  | finish hrecv hinput =>
      have hfalse := hmore (by simp [hrecv]) (by simp [hrecv]) (by simp [hrecv])
      exact ⟨fun htrue => absurd htrue (by simp [hfalse]), by simp⟩
  | close hrecv => exact ⟨fun _ => .inl (by rw [hstage rfl _ hrecv]), by simp⟩
  | stage hrecv =>
      have hfalse := hmore (by simp [hrecv]) (by simp [hrecv]) (by simp [hrecv])
      exact ⟨fun htrue => absurd htrue (by simp [hfalse]), by simp⟩
  | purge hrecv hlt hid => exact ⟨hs.ending, by simp [hrecv]⟩
  | loop hrecv hle hfalse => exact ⟨fun htrue => absurd htrue (by simp [hfalse]), by simp⟩
  | stop hrecv hle htrue =>
      refine ⟨fun _ => .inr (.inl rfl), fun _ => ?_⟩
      rcases hs.ending htrue with hlast | hlast | hlast
      · cases hrecv.symm.trans hlast
        exact hshared.purged.antisymm hle
      · cases hrecv.symm.trans hlast
      · cases hrecv.symm.trans hlast
  | leave hrecv => exact ⟨fun _ => .inr (.inr rfl), fun _ => hs.left (.inl hrecv)⟩

theorem caughtUp_releasing (hs : (system input).Reach CaughtUp s) :
    s.Sound input ∧ Releasing s.shared := by
  refine hs.invariant (I := fun s => s.Sound input ∧ Releasing s.shared) ?_ ?_
  · intro s hinit
    refine ⟨reachable_sound (.of_init hinit), ?_⟩
    obtain ⟨-, -, hmore, -, -, hrecv, -⟩ := hinit
    exact ⟨by simp [hmore], by simp [hrecv]⟩
  · intro s l s' ⟨hsound, hs⟩ hok hstep
    refine ⟨step_sound hsound hstep, ?_⟩
    cases l with
    | recv l =>
        obtain ⟨shared, hshared, rfl⟩ := Option.map_eq_some_iff.mp hstep
        refine hs.recvStep hsound.shared ?_ ?_ hshared
        · rintro rfl hi hrecv hnone
          refine hok (by rw [hrecv]; rfl) fun o ho => ?_
          refine Option.eq_none_iff_forall_ne_some.mpr fun k hk => ?_
          exact hnone k (List.mem_map.mpr ⟨o, ho, hk⟩)
        · rintro rfl p hrecv
          exact hok p (by rw [hrecv]; rfl)
    | send i l =>
        simp only [system, step] at hstep
        split at hstep
        · obtain ⟨o, -, rfl⟩ := Option.map_eq_some_iff.mp hstep
          exact hs
        · cases hstep
    | consumer i c =>
        simp only [system, step] at hstep
        split at hstep
        · obtain ⟨o, -, rfl⟩ := Option.map_eq_some_iff.mp hstep
          exact hs
        · cases hstep
    | insertOther m =>
        cases hstep
        exact ⟨hs.ending, hs.left⟩

/-- In runs in which the outputs had caught up, nothing is left in the store. -/
theorem all_released (hs : (system input).Reach CaughtUp s) (hcompleted : s.Completed) :
    ∀ id ∈ s.shared.recvMsgIds, s.shared.store id = none := by
  intro id hid
  obtain ⟨hsound, hreleasing⟩ := caughtUp_releasing hs
  obtain ⟨k, hk⟩ := List.mem_iff_getElem?.mp hid
  have hlt : k < s.shared.recvMsgIds.length := (List.getElem?_eq_some_iff.mp hk).1
  rw [← hreleasing.left (.inr hcompleted.1)] at hlt
  exact hsound.shared.gone k id hlt hk

/-- Two outputs, one message in the input. -/
def oneMessage : State Nat where
  shared := ⟨[7], [], false, [], 0, .waiting none none, 0, fun _ => none⟩
  outputs := [⟨some 0, .waiting, .new, false⟩, ⟨some 0, .waiting, .new, false⟩]

theorem oneMessage_init : (system [7]).init oneMessage := by
  refine ⟨rfl, rfl, rfl, rfl, rfl, rfl, fun o ho => ?_⟩
  rcases List.mem_pair.mp ho with rfl | rfl
  · rfl
  · rfl

/-- An output sends a batch of one message. -/
def batch (i : Nat) : List (Label Nat) :=
  [.send i .take, .send i .copy, .send i .sent, .send i .batchDone, .send i .update]

/-- An output whose consumer takes the last message drains its channel and returns. -/
def windDown (i : Nat) : List (Label Nat) :=
  [.send i .drain, .consumer i .receive, .send i .drained, .send i .leave, .send i .close]

/-- The receive task stages a message. -/
def stageOne : List (Label Nat) :=
  [.recv .request, .recv .receive, .recv .stage, .recv .loop]

theorem completed_of_tasks {s : State α} (hrecv : s.shared.recv = .returned)
    (htasks : s.outputs.map Output.task = [.returned, .returned]) : s.Completed := by
  refine ⟨hrecv, fun o ho => ?_⟩
  have hmem := List.mem_map_of_mem (f := Output.task) ho
  rw [htasks] at hmem
  simpa using hmem

/-- Both outputs have sent the message when the end of the input is requested. -/
theorem all_released_oneMessage :
    ∃ s : State Nat, (system [7]).Reach CaughtUp s ∧ s.Completed ∧ s.shared.recvMsgIds = [0] ∧
      ∀ id ∈ s.shared.recvMsgIds, s.shared.store id = none := by
  have hrun : ∃ s, (stageOne ++ batch 0 ++ batch 1 ++
        [Label.recv .request, .recv .receive, .recv .stage, .recv .purge, .recv .loop, .recv .leave,
          .send 0 .take, .send 1 .take] ++ windDown 0 ++ windDown 1).foldlM
        (fun s l => if CaughtUp s l then step l s else none) oneMessage = some s ∧
      s.shared.recv = .returned ∧ s.shared.recvMsgIds = [0] ∧
      s.outputs.map Output.task = [.returned, .returned] := ⟨_, rfl, rfl, rfl, rfl⟩
  obtain ⟨s, hrun, hrecv, hids, htasks⟩ := hrun
  have hreach : (system [7]).Reach CaughtUp s := by
    refine (System.Reach.init oneMessage_init).exec
      (f := fun l s => if CaughtUp s l then step l s else none) (fun l _ s₁ s₂ h => ?_) hrun
    exact Option.ite_none_right_eq_some.mp h
  have hcompleted := completed_of_tasks hrecv htasks
  exact ⟨s, hreach, hcompleted, hids, all_released hreach hcompleted⟩

/-- The second output has not sent the message yet when the end of the input is requested: the
message is never purged. -/
theorem lagging_output_leaves_message :
    ∃ s : State Nat, (system [7]).Reachable s ∧ s.Completed ∧
      ∃ id ∈ s.shared.recvMsgIds, s.shared.store id = some 7 := by
  have hrun : ∃ s, (stageOne ++ batch 0 ++
        [Label.recv .request, .recv .receive, .recv .stage, .recv .loop, .recv .leave,
          .send 0 .take] ++ windDown 0 ++ batch 1 ++ windDown 1).foldlM
        (fun s l => step l s) oneMessage = some s ∧
      s.shared.recv = .returned ∧ s.shared.recvMsgIds = [0] ∧ s.shared.store 0 = some 7 ∧
      s.outputs.map Output.task = [.returned, .returned] := ⟨_, rfl, rfl, rfl, rfl, rfl⟩
  obtain ⟨s, hrun, hrecv, hids, hstore, htasks⟩ := hrun
  have hcompleted := completed_of_tasks hrecv htasks
  refine ⟨s, ?_, hcompleted, 0, by simp [hids], hstore⟩
  exact (System.Reach.init oneMessage_init).exec (fun l _ s₁ s₂ h => ⟨trivial, h⟩) hrun

end Rapidsmpf.Streaming.Unbounded
