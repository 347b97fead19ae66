import Mathlib
import Rapidsmpf.Progress.ProgressThread

/-!
# The running flag

What every run of the progress thread keeps, and what is kept while each call writes `active_` in
agreement with the loop. `flag_agrees` says for which runs `active_` tells whether the loop is
running, and `remove_function` waits for the end of its function.
-/

namespace Rapidsmpf.ProgressThread

open Protocol

/-! ## What a step does -/

/-- The steps, with their guards. -/
inductive Step (s : State) : Label → State → Prop where
  | start {t c} : s.stage t = .idle →
      Step s (.start t c) { s with stage := Function.update s.stage t c.stage }
  | add {t} : s.stage t = .adding → s.mutex = none →
      Step s (.go t) { s with
        mutex := some (.addResuming t s.nextFunctionId)
        functions := insert s.nextFunctionId s.functions
        isDone := Function.update s.isDone s.nextFunctionId false
        nextFunctionId := s.nextFunctionId + 1
        stage := Function.update s.stage t .inSection }
  | empty {t id} : s.mutex = none → (s.stage t = .removing id ∨ s.stage t = .removeWaiting id) →
      (id ∈ s.functions ∨ s.stage t = .removeWaiting id) →
      (s.active = false ∨ id ∈ s.functions ∧ s.isDone id = true) → s.functions.erase id = ∅ →
      Step s (.go t) { s with
        functions := s.functions.erase id
        removed := insert id s.removed
        mutex := some (.removePausing t)
        stage := Function.update s.stage t .inSection }
  | erase {t id} : s.mutex = none → (s.stage t = .removing id ∨ s.stage t = .removeWaiting id) →
      (id ∈ s.functions ∨ s.stage t = .removeWaiting id) →
      (s.active = false ∨ id ∈ s.functions ∧ s.isDone id = true) →
      Step s (.go t) { s with
        functions := s.functions.erase id
        removed := insert id s.removed
        stage := Function.update s.stage t .idle }
  | wait {t id} : (s.stage t = .removing id ∨ s.stage t = .removeWaiting id) →
      id ∈ s.functions →
      Step s (.go t) { s with stage := Function.update s.stage t (.removeWaiting id) }
  | throw_ {t id} : (s.stage t = .removing id ∨ s.stage t = .removeWaiting id) →
      Step s (.go t) { s with stage := Function.update s.stage t .idle }
  | pause {t} : s.stage t = .pausing →
      Step s (.go t) { s with
        loop := s.loop.pauseNb
        paused := if s.loop = .running then s.paused ∪ s.functions else s.paused
        stage := Function.update s.stage t .pauseWaiting }
  | awaitPaused {t} : s.stage t = .pauseWaiting →
      Step s (.go t) { s with stage := Function.update s.stage t .pauseDeactivating }
  | deactivate {t} : s.stage t = .pauseDeactivating → s.mutex = none →
      Step s (.go t) { s with active := false, stage := Function.update s.stage t .idle }
  | resume {t} : s.stage t = .resuming →
      Step s (.go t) { s with
        loop := s.loop.resume, stage := Function.update s.stage t .resumeActivating }
  | activate {t} : s.stage t = .resumeActivating → s.mutex = none →
      Step s (.go t) { s with active := true, stage := Function.update s.stage t .idle }
  | addResume {t id} : s.mutex = some (.addResuming t id) →
      Step s .inSection { s with loop := s.loop.resume, mutex := some (.addActivating t id) }
  | addActivate {t id} : s.mutex = some (.addActivating t id) →
      Step s .inSection { s with
        active := true, mutex := none, stage := Function.update s.stage t .idle }
  | removePause {t} : s.mutex = some (.removePausing t) →
      Step s .inSection { s with loop := s.loop.pauseNb, mutex := some (.removeDeactivating t) }
  | removeDeactivate {t} : s.mutex = some (.removeDeactivating t) →
      Step s .inSection { s with
        active := false, mutex := none, stage := Function.update s.stage t .idle }
  | advance {control} : Step s .loop { s with control }
  | settle : s.loop = .pausing → Step s .loop { s with loop := .paused, control := .waiting }
  | lock : s.mutex = none →
      Step s .loop { s with mutex := some (.iterating s.functions), control := .iterating }
  | unlock : s.mutex = some (.iterating ∅) →
      Step s .loop { s with mutex := none, control := .waiting }
  | skip {id rest} : s.mutex = some (.iterating rest) →
      Step s (.skip id) { s with mutex := some (.iterating (rest.erase id)) }
  | call {id rest r} : s.mutex = some (.iterating rest) → id ∈ rest → s.isDone id = false →
      Step s (.call id r) { s with
        mutex := some (.iterating (rest.erase id))
        isDone := Function.update s.isDone id r
        done := if r then insert id s.done else s.done }

variable {s s' : State} {l : Label} {t : Thread} {id : FunctionIndex}

theorem evaluate_step (hstage : s.stage t = .removing id ∧ id ∈ s.functions ∨
    s.stage t = .removeWaiting id) (hmutex : s.mutex = none) :
    Step s (.go t) (evaluate t id s) := by
  have hknown : id ∈ s.functions ∨ s.stage t = .removeWaiting id := hstage.imp_left And.right
  have hwhere : s.stage t = .removing id ∨ s.stage t = .removeWaiting id :=
    hstage.imp_left And.left
  unfold evaluate
  split
  · next hcondition =>
      split
      · next hempty => exact .empty hmutex hwhere hknown hcondition hempty
      · exact .erase hmutex hwhere hknown hcondition
  · split
    · next hmem => exact .wait hwhere hmem
    · exact .throw_ hwhere

theorem go_step (h : go t s = some s') : Step s (.go t) s' := by
  unfold go at h
  dsimp only at h
  split at h
  · cases h
  · cases h
  · next hstage =>
      split at h
      · next hmutex =>
          cases h
          exact .add hstage hmutex
      · cases h
  · next id hstage =>
      split at h
      · next hmutex =>
          split at h
          · next hmem =>
              cases h
              exact evaluate_step (.inl ⟨hstage, hmem⟩) hmutex
          · cases h
            exact .throw_ (.inl hstage)
      · cases h
  · next id hstage =>
      split at h
      · next hmutex =>
          cases h
          exact evaluate_step (.inr hstage) hmutex
      · cases h
  · next hstage =>
      cases h
      exact .pause hstage
  · next hstage =>
      split at h
      · cases h
      · cases h
        exact .awaitPaused hstage
  · next hstage =>
      split at h
      · next hmutex =>
          cases h
          exact .deactivate hstage hmutex
      · cases h
  · next hstage =>
      cases h
      exact .resume hstage
  · next hstage =>
      split at h
      · next hmutex =>
          cases h
          exact .activate hstage hmutex
      · cases h

theorem section_step (h : sectionStep s = some s') : Step s .inSection s' := by
  unfold sectionStep at h
  split at h
  · next hmutex =>
      cases h
      exact .addResume hmutex
  · next hmutex =>
      cases h
      exact .addActivate hmutex
  · next hmutex =>
      cases h
      exact .removePause hmutex
  · next hmutex =>
      cases h
      exact .removeDeactivate hmutex
  · cases h

theorem loop_step (h : loopStep s = some s') : Step s .loop s' := by
  unfold loopStep at h
  split at h
  · split at h
    · cases h
    · cases h
      exact .advance
  · split at h
    · next hpausing =>
        cases h
        exact .settle hpausing
    · cases h
      exact .advance
  · split at h
    · next hmutex =>
        cases h
        exact .lock hmutex
    · cases h
  · split at h
    · next hmutex =>
        cases h
        exact .unlock hmutex
    · cases h

theorem visit_step {result : Option Bool} (h : visit id result s = some s') :
    Step s (match result with | none => .skip id | some r => .call id r) s' := by
  unfold visit at h
  split at h
  · next rest hmutex =>
      split at h
      · next hmem =>
          cases hdone : s.isDone id with
          | true =>
              rw [hdone] at h
              cases result with
              | none =>
                  cases h
                  exact .skip hmutex
              | some r => cases h
          | false =>
              rw [hdone] at h
              cases result with
              | none => cases h
              | some r =>
                  cases h
                  exact .call hmutex hmem hdone
      · cases h
  · cases h

theorem step_cases (h : step l s = some s') : Step s l s' := by
  cases l with
  | start t c =>
      simp only [step] at h
      split at h
      · next hidle =>
          cases h
          exact .start hidle
      · cases h
  | go t => exact go_step h
  | inSection => exact section_step h
  | loop => exact loop_step h
  | skip id => exact visit_step h
  | call id result => exact visit_step h

/-! ## What every run keeps -/

/-- The functions and what is recorded of them. -/
structure Inv (s : State) : Prop where
  rest : ∀ rest, s.mutex = some (.iterating rest) → rest ⊆ s.functions
  registered : ∀ id ∈ s.functions, id < s.nextFunctionId
  done_lt : ∀ id ∈ s.done, id < s.nextFunctionId
  removed_lt : ∀ id ∈ s.removed, id < s.nextFunctionId ∧ id ∉ s.functions
  done_iff : ∀ id ∈ s.functions, s.isDone id = true ↔ id ∈ s.done
  waiting : ∀ t id, s.stage t = .removeWaiting id → id ∈ s.functions ∨ id ∈ s.removed

/-- Whoever moves on keeps what is known of the waiting threads. -/
theorem Inv.waiting_update (hs : Inv s) {stage : Stage}
    (hstage : ∀ id, stage = .removeWaiting id → id ∈ s.functions ∨ id ∈ s.removed) (u : Thread)
    (id : FunctionIndex) (h : Function.update s.stage t stage u = .removeWaiting id) :
    id ∈ s.functions ∨ id ∈ s.removed := by
  rcases eq_or_ne u t with rfl | hne
  · rw [Function.update_self] at h
    exact hstage id h
  · rw [Function.update_of_ne hne] at h
    exact hs.waiting u id h

/-- A function is erased. -/
theorem Inv.erased (hs : Inv s) (hknown : id ∈ s.functions ∨ s.stage t = .removeWaiting id)
    {mutex : Option Section} (hmutex : ∀ rest, mutex ≠ some (.iterating rest)) {stage : Stage}
    (hstage : ∀ id, stage ≠ .removeWaiting id) :
    Inv { s with
      functions := s.functions.erase id
      removed := insert id s.removed
      mutex
      stage := Function.update s.stage t stage } where
  rest rest h := absurd h (hmutex rest)
  registered k hk := hs.registered k (Finset.mem_of_mem_erase hk)
  done_lt := hs.done_lt
  removed_lt := by
    intro k hk
    rcases Finset.mem_insert.mp hk with rfl | hk
    · have hlt : k < s.nextFunctionId := by
        rcases hknown with hmem | hwaiting
        · exact hs.registered k hmem
        · exact (hs.waiting t k hwaiting).elim (hs.registered k) fun h => (hs.removed_lt k h).1
      exact ⟨hlt, Finset.notMem_erase k _⟩
    · exact ⟨(hs.removed_lt k hk).1, fun h => (hs.removed_lt k hk).2 (Finset.mem_of_mem_erase h)⟩
  done_iff k hk := hs.done_iff k (Finset.mem_of_mem_erase hk)
  waiting := by
    intro u k hu
    have hold := hs.waiting_update (fun k h => absurd h (hstage k)) u k hu
    rcases eq_or_ne k id with rfl | hne
    · exact .inr (Finset.mem_insert_self _ _)
    · exact hold.imp (fun h => Finset.mem_erase.mpr ⟨hne, h⟩) Finset.mem_insert_of_mem

theorem Inv.step (hs : Inv s) (h : Step s l s') : Inv s' := by
  obtain ⟨hrest, hregistered, hdone, hremoved, hiff, hwaiting⟩ := hs
  have hs : Inv s := ⟨hrest, hregistered, hdone, hremoved, hiff, hwaiting⟩
  cases h with
  | @start t c _ =>
      refine ⟨hrest, hregistered, hdone, hremoved, hiff, hs.waiting_update fun id h => ?_⟩
      cases c <;> cases h
  | @add t _ hmutex =>
      refine ⟨fun rest h => (by cases h), fun id hid => ?_, fun id hid => ?_, fun id hid => ?_,
        fun id hid => ?_, fun u id hu => ?_⟩
      · rcases Finset.mem_insert.mp hid with rfl | hid
        · exact Nat.lt_succ_self _
        · exact Nat.lt_succ_of_lt (hregistered id hid)
      · exact Nat.lt_succ_of_lt (hdone id hid)
      · obtain ⟨hlt, hnot⟩ := hremoved id hid
        refine ⟨Nat.lt_succ_of_lt hlt, fun hmem => ?_⟩
        exact (Finset.mem_insert.mp hmem).elim (fun heq => hlt.ne heq) hnot
      · dsimp only
        rcases Finset.mem_insert.mp hid with rfl | hid
        · rw [Function.update_self]
          exact ⟨fun h => (by cases h), fun h => absurd (hdone _ h) (lt_irrefl _)⟩
        · rw [Function.update_of_ne (hregistered id hid).ne]
          exact hiff id hid
      · have hold := hs.waiting_update (fun id h => by cases h) u id hu
        exact hold.imp_left Finset.mem_insert_of_mem
  | empty hmutex _ hknown _ _ =>
      exact hs.erased hknown (fun rest h => by cases h) fun id h => by cases h
  | erase hmutex _ hknown _ =>
      have hfree : ∀ rest, s.mutex ≠ some (.iterating rest) := fun rest h => by
        rw [hmutex] at h
        cases h
      exact hs.erased hknown hfree fun id h => by cases h
  | wait _ hmem =>
      refine ⟨hrest, hregistered, hdone, hremoved, hiff, hs.waiting_update fun k h => .inl ?_⟩
      cases h
      exact hmem
  | throw_ _ =>
      exact ⟨hrest, hregistered, hdone, hremoved, hiff, hs.waiting_update fun k h => by cases h⟩
  | pause _ =>
      exact ⟨hrest, hregistered, hdone, hremoved, hiff, hs.waiting_update fun k h => by cases h⟩
  | awaitPaused _ =>
      exact ⟨hrest, hregistered, hdone, hremoved, hiff, hs.waiting_update fun k h => by cases h⟩
  | deactivate _ _ =>
      exact ⟨hrest, hregistered, hdone, hremoved, hiff, hs.waiting_update fun k h => by cases h⟩
  | resume _ =>
      exact ⟨hrest, hregistered, hdone, hremoved, hiff, hs.waiting_update fun k h => by cases h⟩
  | activate _ _ =>
      exact ⟨hrest, hregistered, hdone, hremoved, hiff, hs.waiting_update fun k h => by cases h⟩
  | addResume _ => exact ⟨fun rest h => (by cases h), hregistered, hdone, hremoved, hiff, hwaiting⟩
  | addActivate _ =>
      exact ⟨fun rest h => (by cases h), hregistered, hdone, hremoved, hiff,
        hs.waiting_update fun k h => by cases h⟩
  | removePause _ =>
      exact ⟨fun rest h => (by cases h), hregistered, hdone, hremoved, hiff, hwaiting⟩
  | removeDeactivate _ =>
      exact ⟨fun rest h => (by cases h), hregistered, hdone, hremoved, hiff,
        hs.waiting_update fun k h => by cases h⟩
  | advance => exact ⟨hrest, hregistered, hdone, hremoved, hiff, hwaiting⟩
  | settle _ => exact ⟨hrest, hregistered, hdone, hremoved, hiff, hwaiting⟩
  | lock _ =>
      refine ⟨fun rest h => ?_, hregistered, hdone, hremoved, hiff, hwaiting⟩
      cases h
      exact Finset.Subset.refl _
  | unlock _ => exact ⟨fun rest h => (by cases h), hregistered, hdone, hremoved, hiff, hwaiting⟩
  | skip hmutex =>
      refine ⟨fun rest h => ?_, hregistered, hdone, hremoved, hiff, hwaiting⟩
      cases h
      exact (Finset.erase_subset _ _).trans (hrest _ hmutex)
  | @call id rest r hmutex hmem hfalse =>
      have hid := hrest rest hmutex hmem
      refine ⟨fun rest h => ?_, hregistered, fun k hk => ?_, hremoved, fun k hk => ?_, hwaiting⟩
      · cases h
        exact (Finset.erase_subset _ _).trans (hrest _ hmutex)
      · cases r with
        | false => exact hdone k hk
        | true =>
            rcases Finset.mem_insert.mp hk with rfl | hk
            · exact hregistered k hid
            · exact hdone k hk
      · dsimp only
        rcases eq_or_ne k id with rfl | hne
        · rw [Function.update_self]
          have hnot : k ∉ s.done := fun h => by
            rw [(hiff k hid).mpr h] at hfalse
            cases hfalse
          cases r <;> simp [hnot]
        · rw [Function.update_of_ne hne, hiff k hk]
          cases r <;> simp [hne]

theorem inv_initial : Inv initial := by
  refine ⟨fun rest h => (by cases h), fun id h => ?_, fun id h => ?_, fun id h => ?_,
    fun id h => ?_, fun t id h => (by cases h)⟩ <;> exact absurd h (Finset.notMem_empty id)

theorem reachable_inv (h : system.Reachable s) : Inv s := by
  refine h.invariant ?_ fun s l s' hs hstep => hs.step (step_cases hstep)
  rintro s rfl
  exact inv_initial

/-! ## The flag and the loop -/

/-- The call that is in this section. -/
def Section.caller : Section → Option Thread
  | .addResuming t _ => some t
  | .addActivating t _ => some t
  | .removePausing t => some t
  | .removeDeactivating t => some t
  | .iterating _ => none

/-- When `active_` does not tell whether the loop is running, a call is about to correct it. -/
structure Truthful (s : State) : Prop where
  running : s.loop = .running →
    s.active = true ∨ s.Setting ∨ ∃ t id, s.mutex = some (.addActivating t id)
  stopped : s.loop ≠ .running →
    s.active = false ∨ s.Clearing ∨ ∃ t, s.mutex = some (.removeDeactivating t)
  activating : ∀ t id, s.mutex = some (.addActivating t id) → s.loop = .running ∨ s.Clearing
  deactivating : ∀ t, s.mutex = some (.removeDeactivating t) → s.loop ≠ .running ∨ s.Setting
  caller : ∀ c t, s.mutex = some c → c.caller = some t → s.stage t = .inSection

section Pending

variable {stage : Stage}

theorem State.Setting.update (h : s.Setting) (hne : s.stage t ≠ .resumeActivating) :
    ∃ u, Function.update s.stage t stage u = .resumeActivating := by
  obtain ⟨u, hu⟩ := h
  refine ⟨u, ?_⟩
  rwa [Function.update_of_ne fun hut : u = t => hne (hut ▸ hu)]

theorem State.Clearing.update (h : s.Clearing) (hwaiting : s.stage t ≠ .pauseWaiting)
    (hdeactivating : s.stage t ≠ .pauseDeactivating) :
    ∃ u, Function.update s.stage t stage u = .pauseWaiting ∨
      Function.update s.stage t stage u = .pauseDeactivating := by
  obtain ⟨u, hu⟩ := h
  have hne : u ≠ t := fun hut => hu.elim (hut ▸ hwaiting) (hut ▸ hdeactivating)
  exact ⟨u, by rwa [Function.update_of_ne hne]⟩

theorem Truthful.caller_update (hs : Truthful s) (hne : s.stage t ≠ .inSection) (c : Section)
    (u : Thread) (hc : s.mutex = some c) (hu : c.caller = some u) :
    Function.update s.stage t stage u = .inSection := by
  have hold := hs.caller c u hc hu
  rwa [Function.update_of_ne fun hut : u = t => hne (hut ▸ hold)]

end Pending

/-- A step after which the loop runs as before, and the flag and the pending calls are those of
before. -/
theorem Truthful.quiet (hs : Truthful s) (hloop : s'.loop = .running ↔ s.loop = .running)
    (hactive : s'.active = s.active) (hsetting : s.Setting → s'.Setting)
    (hclearing : s.Clearing → s'.Clearing)
    (hactivating : ∀ t id, s'.mutex = some (.addActivating t id) ↔
      s.mutex = some (.addActivating t id))
    (hdeactivating : ∀ t, s'.mutex = some (.removeDeactivating t) ↔
      s.mutex = some (.removeDeactivating t))
    (hcaller : ∀ c t, s'.mutex = some c → c.caller = some t → s'.stage t = .inSection) :
    Truthful s' where
  running h := by
    rw [hactive]
    refine (hs.running (hloop.mp h)).imp_right fun hpending => hpending.imp hsetting ?_
    rintro ⟨t, id, hmutex⟩
    exact ⟨t, id, (hactivating t id).mpr hmutex⟩
  stopped h := by
    rw [hactive]
    refine (hs.stopped fun hr => h (hloop.mpr hr)).imp_right fun hpending =>
      hpending.imp hclearing ?_
    rintro ⟨t, hmutex⟩
    exact ⟨t, (hdeactivating t).mpr hmutex⟩
  activating t id h := (hs.activating t id ((hactivating t id).mp h)).imp hloop.mpr hclearing
  deactivating t h :=
    (hs.deactivating t ((hdeactivating t).mp h)).imp (fun hne hr => hne (hloop.mp hr)) hsetting
  caller := hcaller

theorem removing_ne (h : s.stage t = .removing id ∨ s.stage t = .removeWaiting id) :
    s.stage t ≠ .resumeActivating ∧ s.stage t ≠ .pauseWaiting ∧ s.stage t ≠ .pauseDeactivating ∧
      s.stage t ≠ .inSection := by
  rcases h with h | h <;> simp [h]

theorem pause_nb_ne_running (loop : LoopState) : loop.pauseNb ≠ .running := by
  cases loop <;> simp [LoopState.pauseNb]

/-- A step of a call that stays outside of what the flag depends on. -/
theorem Truthful.moved (hs : Truthful s) {functions removed paused : Finset FunctionIndex}
    {stage : Stage} (hsetting : s.stage t ≠ .resumeActivating)
    (hwaiting : s.stage t ≠ .pauseWaiting) (hclearing : s.stage t ≠ .pauseDeactivating)
    (hsection : s.stage t ≠ .inSection) :
    Truthful { s with functions, removed, paused, stage := Function.update s.stage t stage } :=
  hs.quiet Iff.rfl rfl (fun h => h.update hsetting) (fun h => h.update hwaiting hclearing)
    (fun _ _ => Iff.rfl) (fun _ => Iff.rfl) (hs.caller_update hsection)

theorem Truthful.step (hs : Truthful s) (hok : Agreeing s l) (h : Step s l s') : Truthful s' := by
  cases h with
  | @start t c hidle =>
      exact hs.moved (by simp [hidle]) (by simp [hidle]) (by simp [hidle]) (by simp [hidle])
  | @add t hstage hmutex =>
      refine hs.quiet Iff.rfl rfl (fun h => h.update (by simp [hstage]))
        (fun h => h.update (by simp [hstage]) (by simp [hstage])) (fun _ _ => by simp [hmutex])
        (fun _ => by simp [hmutex]) fun c u hc hu => ?_
      cases hc
      cases hu
      exact Function.update_self _ _ _
  | @empty t id hmutex hwhere _ _ _ =>
      have hne := removing_ne hwhere
      refine hs.quiet Iff.rfl rfl (fun h => h.update hne.1)
        (fun h => h.update hne.2.1 hne.2.2.1) (fun _ _ => by simp [hmutex])
        (fun _ => by simp [hmutex]) fun c u hc hu => ?_
      cases hc
      cases hu
      exact Function.update_self _ _ _
  | @erase t id _ hwhere _ _ =>
      have hne := removing_ne hwhere
      exact hs.moved hne.1 hne.2.1 hne.2.2.1 hne.2.2.2
  | @wait t id hwhere _ =>
      have hne := removing_ne hwhere
      exact hs.moved hne.1 hne.2.1 hne.2.2.1 hne.2.2.2
  | @throw_ t id hwhere =>
      have hne := removing_ne hwhere
      exact hs.moved hne.1 hne.2.1 hne.2.2.1 hne.2.2.2
  | @pause t hstage =>
      have hclearing : ∃ u, Function.update s.stage t Stage.pauseWaiting u = .pauseWaiting ∨
          Function.update s.stage t Stage.pauseWaiting u = .pauseDeactivating :=
        ⟨t, .inl (Function.update_self _ _ _)⟩
      exact {
        running := fun h => absurd h (pause_nb_ne_running _)
        stopped := fun _ => .inr (.inl hclearing)
        activating := fun _ _ _ => .inr hclearing
        deactivating := fun _ _ => .inl (pause_nb_ne_running _)
        caller := hs.caller_update (by simp [hstage]) }
  | @awaitPaused t hstage =>
      refine hs.quiet Iff.rfl rfl (fun h => h.update (by simp [hstage])) (fun _ => ?_)
        (fun _ _ => Iff.rfl) (fun _ => Iff.rfl) (hs.caller_update (by simp [hstage]))
      exact ⟨t, .inr (Function.update_self _ _ _)⟩
  | @deactivate t hstage hmutex =>
      refine ⟨fun h => ?_, fun _ => .inl rfl, fun _ _ h => (by simp [hmutex] at h),
        fun _ h => (by simp [hmutex] at h), fun _ _ h _ => (by simp [hmutex] at h)⟩
      have hsetting : s.Setting := (((hok t rfl).1 hstage).resolve_left fun hne => hne h).1
      exact .inr (.inl (hsetting.update (by simp [hstage])))
  | @resume t hstage =>
      have hsetting : ∃ u, Function.update s.stage t Stage.resumeActivating u = .resumeActivating :=
        ⟨t, Function.update_self _ _ _⟩
      exact {
        running := fun _ => .inr (.inl hsetting)
        stopped := fun h => absurd rfl h
        activating := fun _ _ _ => .inl rfl
        deactivating := fun _ _ => .inr hsetting
        caller := hs.caller_update (by simp [hstage]) }
  | @activate t hstage hmutex =>
      have hpending : s.loop = .running ∨ s.Clearing := (hok t rfl).2 hstage
      refine ⟨fun _ => .inl rfl, fun h => ?_, fun _ _ h => (by simp [hmutex] at h),
        fun _ h => (by simp [hmutex] at h), fun _ _ h _ => (by simp [hmutex] at h)⟩
      have hclearing : s.Clearing := hpending.resolve_left h
      exact .inr (.inl (hclearing.update (by simp [hstage]) (by simp [hstage])))
  | @addResume t id hmutex =>
      refine ⟨fun _ => .inr (.inr ⟨t, id, rfl⟩), fun h => absurd rfl h, fun _ _ _ => .inl rfl,
        fun _ h => (by cases h), fun c u hc hu => ?_⟩
      cases hc
      exact hs.caller _ u hmutex hu
  | @addActivate t id hmutex =>
      have hstage : s.stage t = .inSection := hs.caller _ t hmutex rfl
      refine ⟨fun _ => .inl rfl, fun h => ?_, fun _ _ h => (by cases h), fun _ h => (by cases h),
        fun _ _ h _ => (by cases h)⟩
      have hclearing : s.Clearing := (hs.activating t id hmutex).resolve_left h
      exact .inr (.inl (hclearing.update (by simp [hstage]) (by simp [hstage])))
  | @removePause t hmutex =>
      refine ⟨fun h => absurd h (pause_nb_ne_running _), fun _ => .inr (.inr ⟨t, rfl⟩),
        fun _ _ h => (by cases h), fun _ _ => .inl (pause_nb_ne_running _), fun c u hc hu => ?_⟩
      cases hc
      exact hs.caller _ u hmutex hu
  | @removeDeactivate t hmutex =>
      have hstage : s.stage t = .inSection := hs.caller _ t hmutex rfl
      refine ⟨fun h => ?_, fun _ => .inl rfl, fun _ _ h => (by cases h), fun _ h => (by cases h),
        fun _ _ h _ => (by cases h)⟩
      have hsetting : s.Setting := (hs.deactivating t hmutex).resolve_left fun hne => hne h
      exact .inr (.inl (hsetting.update (by simp [hstage])))
  | advance => exact ⟨hs.running, hs.stopped, hs.activating, hs.deactivating, hs.caller⟩
  | settle hloop =>
      exact hs.quiet (by simp [hloop]) rfl id id (fun _ _ => Iff.rfl) (fun _ => Iff.rfl) hs.caller
  | lock hmutex =>
      refine hs.quiet Iff.rfl rfl id id (fun _ _ => by simp [hmutex]) (fun _ => by simp [hmutex])
        fun c u hc hu => ?_
      cases hc
      cases hu
  | unlock hmutex =>
      exact hs.quiet Iff.rfl rfl id id (fun _ _ => by simp [hmutex]) (fun _ => by simp [hmutex])
        fun c u hc _ => by cases hc
  | skip hmutex =>
      refine hs.quiet Iff.rfl rfl id id (fun _ _ => by simp [hmutex]) (fun _ => by simp [hmutex])
        fun c u hc hu => ?_
      cases hc
      cases hu
  | call hmutex _ _ =>
      refine hs.quiet Iff.rfl rfl id id (fun _ _ => by simp [hmutex]) (fun _ => by simp [hmutex])
        fun c u hc hu => ?_
      cases hc
      cases hu

theorem truthful_initial : Truthful initial where
  running h := by cases h
  stopped _ := .inl rfl
  activating _ _ h := by cases h
  deactivating _ h := by cases h
  caller _ _ h _ := by cases h

/-! ## The removed functions -/

/-- The functions that are registered while the loop is not running, or while `active_` says so,
were registered when the user paused the loop, unless their `add_function` is about to resume it.
-/
structure Excused (s : State) : Prop where
  emptied : ∀ t, s.mutex = some (.removePausing t) ∨ s.mutex = some (.removeDeactivating t) →
    s.functions = ∅
  marked : s.loop ≠ .running → ∀ id ∈ s.functions,
    id ∈ s.paused ∨ ∃ t, s.mutex = some (.addResuming t id)
  cleared : s.active = false → ∀ id ∈ s.functions, id ∈ s.paused ∨
    ∃ t, s.mutex = some (.addResuming t id) ∨ s.mutex = some (.addActivating t id)
  removed : ∀ id ∈ s.removed, id ∈ s.done ∨ id ∈ s.paused

/-- A step of a call that holds no mutex and does not change the loop or the flag. -/
theorem Excused.moved (hs : Excused s) {stage : Thread → Stage} : Excused { s with stage } :=
  ⟨hs.emptied, hs.marked, hs.cleared, hs.removed⟩

/-- The mutex goes from hand to hand, and no thread takes it to add or remove. -/
theorem Excused.passed (hs : Excused s) {mutex : Option Section} {control : Control}
    {isDone : FunctionIndex → Bool} {done : Finset FunctionIndex} (hdone : s.done ⊆ done)
    (hbefore : ∀ c t, s.mutex = some c → c.caller ≠ some t)
    (hafter : ∀ c t, mutex = some c → c.caller ≠ some t) :
    Excused { s with mutex, control, isDone, done } where
  emptied t h := h.elim (fun h => absurd rfl (hafter _ t h)) fun h => absurd rfl (hafter _ t h)
  marked hloop id hid := (hs.marked hloop id hid).imp_right fun ⟨t, h⟩ =>
    absurd rfl (hbefore _ t h)
  cleared hactive id hid := (hs.cleared hactive id hid).imp_right fun ⟨t, h⟩ =>
    h.elim (fun h => absurd rfl (hbefore _ t h)) fun h => absurd rfl (hbefore _ t h)
  removed id hid := (hs.removed id hid).imp_left fun h => hdone h

/-- A function may be erased when it has returned `Done`, or the user has paused the loop. -/
theorem Excused.erased (hs : Excused s) (hinv : Inv s) (hmutex : s.mutex = none)
    (hknown : id ∈ s.functions ∨ s.stage t = .removeWaiting id)
    (hcondition : s.active = false ∨ id ∈ s.functions ∧ s.isDone id = true) {k : FunctionIndex}
    (hk : k ∈ insert id s.removed) : k ∈ s.done ∨ k ∈ s.paused := by
  rcases Finset.mem_insert.mp hk with rfl | hk
  · have hwhere : k ∈ s.functions ∨ k ∈ s.removed :=
      hknown.elim .inl (hinv.waiting t k)
    rcases hwhere with hmem | hremoved
    · rcases hcondition with hinactive | ⟨_, hdone⟩
      · refine (hs.cleared hinactive k hmem).elim .inr ?_
        rintro ⟨u, h | h⟩ <;> rw [hmutex] at h <;> cases h
      · exact .inl ((hinv.done_iff k hmem).mp hdone)
    · exact hs.removed k hremoved
  · exact hs.removed k hk

theorem Excused.step (hs : Excused s) (hinv : Inv s) (hok : Agreeing s l) (h : Step s l s') :
    Excused s' := by
  obtain ⟨hemptied, hmarked, hcleared, hremoved⟩ := hs
  have hs : Excused s := ⟨hemptied, hmarked, hcleared, hremoved⟩
  -- Without the mutex no `add_function` is about to resume the loop.
  have hfree : s.mutex = none → s.loop ≠ .running → ∀ id ∈ s.functions, id ∈ s.paused := by
    intro hmutex hloop id hid
    refine (hmarked hloop id hid).resolve_right ?_
    rintro ⟨u, h⟩
    rw [hmutex] at h
    cases h
  cases h with
  | start _ => exact hs.moved
  | wait _ _ => exact hs.moved
  | throw_ _ => exact hs.moved
  | awaitPaused _ => exact hs.moved
  | advance => exact ⟨hemptied, hmarked, hcleared, hremoved⟩
  | @add t _ hmutex =>
      refine ⟨fun u h => (by rcases h with h | h <;> cases h), fun hloop id hid => ?_,
        fun hinactive id hid => ?_, hremoved⟩
      · rcases Finset.mem_insert.mp hid with rfl | hid
        · exact .inr ⟨t, rfl⟩
        · exact .inl (hfree hmutex hloop id hid)
      · rcases Finset.mem_insert.mp hid with rfl | hid
        · exact .inr ⟨t, .inl rfl⟩
        · refine .inl ((hcleared hinactive id hid).resolve_right ?_)
          rintro ⟨u, h | h⟩ <;> rw [hmutex] at h <;> cases h
  | @empty t id hmutex _ hknown hcondition hempty =>
      have hnone : ∀ k, k ∉ s.functions.erase id := fun k hk => by
        rw [hempty] at hk
        exact Finset.notMem_empty k hk
      exact ⟨fun _ _ => hempty, fun _ k hk => absurd hk (hnone k),
        fun _ k hk => absurd hk (hnone k), fun k hk => hs.erased hinv hmutex hknown hcondition hk⟩
  | @erase t id hmutex _ hknown hcondition =>
      refine ⟨fun u h => (by rw [hmutex] at h; rcases h with h | h <;> cases h),
        fun hloop k hk => hmarked hloop k (Finset.mem_of_mem_erase hk),
        fun hinactive k hk => hcleared hinactive k (Finset.mem_of_mem_erase hk),
        fun k hk => hs.erased hinv hmutex hknown hcondition hk⟩
  | @pause t hstage =>
      have hsubset : s.paused ⊆ if s.loop = .running then s.paused ∪ s.functions else s.paused := by
        split
        · exact Finset.subset_union_left
        · exact Finset.Subset.refl _
      refine ⟨hemptied, fun _ id hid => ?_,
        fun hinactive id hid => (hcleared hinactive id hid).imp_left fun h => hsubset h,
        fun id hid => (hremoved id hid).imp_right fun h => hsubset h⟩
      by_cases hloop : s.loop = .running
      · left
        show id ∈ if s.loop = .running then s.paused ∪ s.functions else s.paused
        rw [if_pos hloop]
        exact Finset.mem_union_right _ hid
      · exact (hmarked hloop id hid).imp_left fun h => hsubset h
  | @deactivate t hstage hmutex =>
      refine ⟨hemptied, hmarked, fun _ id hid => .inl ?_, hremoved⟩
      rcases (hok t rfl).1 hstage with hstopped | ⟨-, hpaused⟩
      · exact hfree hmutex hstopped id hid
      · exact hpaused hid
  | resume _ => exact ⟨hemptied, fun h => absurd rfl h, hcleared, hremoved⟩
  | activate _ _ => exact ⟨hemptied, hmarked, fun h => (by cases h), hremoved⟩
  | @addResume t id hmutex =>
      refine ⟨fun u h => (by rcases h with h | h <;> cases h), fun h => absurd rfl h,
        fun hinactive k hk => (hcleared hinactive k hk).imp_right ?_, hremoved⟩
      rintro ⟨u, h | h⟩ <;> rw [hmutex] at h <;> cases h
      exact ⟨t, .inr rfl⟩
  | @addActivate t id hmutex =>
      refine ⟨fun u h => (by rcases h with h | h <;> cases h),
        fun hloop k hk => .inl ((hmarked hloop k hk).resolve_right ?_), fun h => (by cases h),
        hremoved⟩
      rintro ⟨u, h⟩
      rw [hmutex] at h
      cases h
  | @removePause t hmutex =>
      have hempty : s.functions = ∅ := hemptied t (.inl hmutex)
      have hnone : ∀ k, k ∉ s.functions := fun k hk => by
        rw [hempty] at hk
        exact Finset.notMem_empty k hk
      exact ⟨fun _ _ => hempty, fun _ k hk => absurd hk (hnone k),
        fun _ k hk => absurd hk (hnone k), hremoved⟩
  | @removeDeactivate t hmutex =>
      have hempty : s.functions = ∅ := hemptied t (.inr hmutex)
      have hnone : ∀ k, k ∉ s.functions := fun k hk => by
        rw [hempty] at hk
        exact Finset.notMem_empty k hk
      exact ⟨fun _ _ => hempty, fun _ k hk => absurd hk (hnone k),
        fun _ k hk => absurd hk (hnone k), hremoved⟩
  | settle hloop =>
      exact ⟨hemptied, fun _ => hmarked (by simp [hloop]), hcleared, hremoved⟩
  | lock hmutex =>
      refine hs.passed (Finset.Subset.refl _) (fun c u hc _ => ?_) fun c u hc hu => ?_
      · rw [hmutex] at hc
        cases hc
      · cases hc
        cases hu
  | unlock hmutex =>
      refine hs.passed (Finset.Subset.refl _) (fun c u hc hu => ?_) fun c u hc _ => by cases hc
      rw [hmutex] at hc
      cases hc
      cases hu
  | skip hmutex =>
      refine hs.passed (Finset.Subset.refl _) (fun c u hc hu => ?_) fun c u hc hu => ?_
      · rw [hmutex] at hc
        cases hc
        cases hu
      · cases hc
        cases hu
  | @call id _ r hmutex _ _ =>
      refine hs.passed ?_ (fun c u hc hu => ?_) fun c u hc hu => ?_
      · cases r
        · exact Finset.Subset.refl _
        · exact Finset.subset_insert _ _
      · rw [hmutex] at hc
        cases hc
        cases hu
      · cases hc
        cases hu

theorem excused_initial : Excused initial where
  emptied _ _ := rfl
  marked _ id hid := absurd hid (Finset.notMem_empty id)
  cleared _ id hid := absurd hid (Finset.notMem_empty id)
  removed id hid := absurd hid (Finset.notMem_empty id)

theorem reachable_agrees (h : system.Reach Agreeing s) : Inv s ∧ Truthful s ∧ Excused s := by
  refine h.invariant (I := fun s => Inv s ∧ Truthful s ∧ Excused s) ?_
    fun s l s' hs hok hstep => ?_
  · rintro s rfl
    exact ⟨inv_initial, truthful_initial, excused_initial⟩
  · obtain ⟨hinv, htruthful, hexcused⟩ := hs
    have hnext := step_cases hstep
    exact ⟨hinv.step hnext, htruthful.step hok hnext, hexcused.step hinv hok hnext⟩

/-- Without a call in progress nothing is pending. -/
theorem Truthful.of_no_call (hs : Truthful s) (hcall : s.NoCall) :
    s.active = true ↔ s.loop = .running := by
  have hsetting : ¬ s.Setting := by
    rintro ⟨t, ht⟩
    rw [hcall t] at ht
    cases ht
  have hclearing : ¬ s.Clearing := by
    rintro ⟨t, ht | ht⟩ <;> rw [hcall t] at ht <;> cases ht
  have hsection : ∀ c t, s.mutex = some c → c.caller ≠ some t := by
    intro c t hc ht
    have hstage := hs.caller c t hc ht
    rw [hcall t] at hstage
    cases hstage
  constructor
  · intro hactive
    by_contra hloop
    rcases hs.stopped hloop with h | h | ⟨t, h⟩
    · rw [hactive] at h
      cases h
    · exact hclearing h
    · exact hsection _ t h rfl
  · intro hloop
    rcases hs.running hloop with h | h | ⟨t, id, h⟩
    · exact h
    · exact absurd h hsetting
    · exact absurd rfl (hsection _ t h)

/-- A function that is called has not returned `Done` and has not been removed. -/
theorem call_fresh (hs : Inv s) {r : Bool} (h : step (.call id r) s = some s') :
    id ∉ s.done ∧ id ∉ s.removed := by
  cases step_cases h with
  | call hmutex hmem hfalse =>
      have hid : id ∈ s.functions := hs.rest _ hmutex hmem
      refine ⟨fun hdone => ?_, fun hremoved => (hs.removed_lt id hremoved).2 hid⟩
      rw [(hs.done_iff id hid).mpr hdone] at hfalse
      cases hfalse

/-- In the runs in which `pause` and `resume` write `active_` in agreement with the loop, it tells
whether the loop is running whenever no call is in progress, and `remove_function` erases a
function that has returned `Done` unless the user paused the loop since it was added. In all runs a
function is not called after it has returned `Done` or has been removed. -/
theorem flag_agrees (s : State) :
    (system.Reach Agreeing s → (s.NoCall → (s.active = true ↔ s.loop = .running)) ∧
      ∀ id ∈ s.removed, id ∈ s.done ∨ id ∈ s.paused) ∧
    (system.Reachable s → ∀ id r s', step (.call id r) s = some s' →
      id ∉ s.done ∧ id ∉ s.removed) := by
  refine ⟨fun h => ?_, fun h id r s' hcall => call_fresh (reachable_inv h) hcall⟩
  obtain ⟨-, htruthful, hexcused⟩ := reachable_agrees h
  exact ⟨htruthful.of_no_call, hexcused.removed⟩

/-- Enough for `Agreeing` when no other call is pending. -/
def agreesAlone (s : State) : Label → Bool
  | .go t => (s.stage t != .pauseDeactivating || s.loop != .running) &&
      (s.stage t != .resumeActivating || s.loop == .running)
  | _ => true

theorem agreeing_of_alone (h : agreesAlone s l = true) : Agreeing s l := by
  rintro t rfl
  simp only [agreesAlone, Bool.and_eq_true, Bool.or_eq_true, bne_iff_ne, beq_iff_eq] at h
  exact ⟨fun hstage => .inl (h.1.resolve_left fun hne => hne hstage),
    fun hstage => .inl (h.2.resolve_left fun hne => hne hstage)⟩

/-- Thread `t` adds a function. -/
def addFunction (t : Thread) : List Label := [.start t .add, .go t, .inSection, .inSection]

/-- Thread `t` removes the last function. -/
def removeFunction (t : Thread) (id : FunctionIndex) : List Label :=
  [.start t (.remove id), .go t, .inSection, .inSection]

/-- The loop thread enters `event_loop`. -/
def enter : List Label := [.loop, .loop, .loop]

/-- It calls a function and leaves `event_loop`. -/
def callOnce (id : FunctionIndex) (result : Bool) : List Label := [.call id result, .loop]

/-- Thread 0 pauses the paused loop, and thread 1 adds a function before the pause has ended. -/
def latePause : List Label := [.start 0 .pause, .go 0, .go 0] ++ addFunction 1 ++ [.go 0]

/-- Thread 0 pauses and resumes. -/
def pauseResume : List Label :=
  [.start 0 .pause, .go 0, .loop, .loop, .go 0, .go 0, .start 0 .resume, .go 0, .go 0]

/-- A function is called once before a pause and a second time after it, when it is done. -/
theorem flag_agrees_one : ∃ s s₁ s₂, system.Reach Agreeing s ∧
    ((s.active = true ↔ s.loop = .running) ∧ (0 ∈ s.done ∨ 0 ∈ s.paused)) ∧
    (step (.call 0 true) s₁ = some s₂ ∧ 0 ∉ s₁.done ∧ 0 ∉ s₁.removed) := by
  have hrun : ∃ s, (addFunction 0 ++ enter ++ callOnce 0 false ++ pauseResume ++ enter ++
      callOnce 0 true ++ removeFunction 0 0).foldlM
      (fun s l => if agreesAlone s l then step l s else none) initial = some s ∧
      (∀ t, s.stage t = .idle) ∧ 0 ∈ s.removed := by
    refine ⟨_, rfl, fun t => ?_, by decide⟩
    rcases t with _ | t <;> rfl
  have hcall : ∃ s₁ s₂, (addFunction 0 ++ enter).foldlM (fun s l => step l s) initial = some s₁ ∧
      step (.call 0 true) s₁ = some s₂ := ⟨_, _, rfl, rfl⟩
  obtain ⟨s, hrun, hidle, hremoved⟩ := hrun
  obtain ⟨s₁, s₂, hbefore, hstep⟩ := hcall
  have hreach : system.Reach Agreeing s := by
    refine (System.Reach.init rfl).exec
      (f := fun l s => if agreesAlone s l then step l s else none) (fun l _ s₁ s₂ h => ?_) hrun
    obtain ⟨hok, hstep⟩ := Option.ite_none_right_eq_some.mp h
    exact ⟨agreeing_of_alone hok, hstep⟩
  have hreachable : system.Reachable s₁ :=
    (System.Reach.init rfl).exec (fun l _ s₁ s₂ h => ⟨trivial, h⟩) hbefore
  obtain ⟨htrue, hkept⟩ := (flag_agrees s).1 hreach
  exact ⟨s, s₁, s₂, hreach, ⟨htrue hidle, hkept 0 hremoved⟩,
    hstep, (flag_agrees s₁).2 hreachable 0 true s₂ hstep⟩

/-- A pause of the paused loop ends after another thread has added a function. The flag is false
while the loop runs, and the function is removed before it is called. -/
theorem pause_clears_running : ∃ s s' : State, system.Reachable s ∧ s.NoCall ∧
    s.active = false ∧ s.loop = .running ∧ system.Reachable s' ∧ s'.NoCall ∧
    0 ∈ s'.removed ∧ 0 ∉ s'.done ∧ 0 ∉ s'.paused := by
  have hrun : ∃ s, latePause.foldlM (fun s l => step l s) initial = some s ∧
      (∀ t, s.stage t = .idle) ∧ s.active = false ∧ s.loop = .running ∧
      ∃ s', (removeFunction 1 0).foldlM (fun s l => step l s) s = some s' ∧
        (∀ t, s'.stage t = .idle) ∧ 0 ∈ s'.removed ∧ 0 ∉ s'.done ∧ 0 ∉ s'.paused := by
    refine ⟨_, rfl, fun t => ?_, rfl, rfl, _, rfl, fun t => ?_, by decide, by decide, by decide⟩
    · rcases t with _ | _ | t <;> rfl
    · rcases t with _ | _ | t <;> rfl
  obtain ⟨s, hrun, hidle, hactive, hloop, s', hremove, hidle', hremoved, hdone, hpaused⟩ := hrun
  have hreach : system.Reachable s :=
    (System.Reach.init rfl).exec (fun l _ s₁ s₂ h => ⟨trivial, h⟩) hrun
  have hreach' : system.Reachable s' := hreach.exec (fun l _ s₁ s₂ h => ⟨trivial, h⟩) hremove
  exact ⟨s, s', hreach, hidle, hactive, hloop, hreach', hidle', hremoved, hdone, hpaused⟩

end Rapidsmpf.ProgressThread
