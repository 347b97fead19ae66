import Mathlib
import Rapidsmpf.Lib.Transition

/-!
# Runs and their labels

A run of a labelled transition system with the labels of its steps. `Run.simulate` is the rule for a
system that simulates another one: each step does what one step of the other does, or nothing that
is visible there.
-/

namespace Protocol.System

universe u v w x

variable {σ : Type u} {ℓ : Type v} {S : System σ ℓ} {s : σ} {ls ls' : List ℓ}

/-- The labels of a run, and the state it ends in. -/
inductive Run (S : System σ ℓ) : List ℓ → σ → Prop where
  | init {s : σ} : S.init s → Run S [] s
  | step {ls : List ℓ} {s s' : σ} {l : ℓ} : Run S ls s → S.step s l s' → Run S (ls ++ [l]) s'

/-- The invariant rule for what holds between the labels so far and the state. -/
theorem Run.invariant {I : List ℓ → σ → Prop} (hinit : ∀ s, S.init s → I [] s)
    (hstep : ∀ ls s l s', I ls s → S.step s l s' → I (ls ++ [l]) s') (h : S.Run ls s) : I ls s := by
  induction h with
  | init h => exact hinit _ h
  | step _ hs ih => exact hstep _ _ _ _ ih hs

/-- A run up to the step with a label. -/
theorem Run.split {l : ℓ} (h : S.Run (ls ++ l :: ls') s) :
    ∃ s₁ s₂, S.Run ls s₁ ∧ S.step s₁ l s₂ := by
  induction ls' using List.reverseRecOn generalizing s with
  | nil =>
      generalize hall : ls ++ [l] = all at h
      cases h with
      | init => exact absurd hall (by simp)
      | step hrun hs =>
          obtain ⟨rfl, hlast⟩ := List.append_inj' hall rfl
          obtain rfl := List.singleton_inj.mp hlast
          exact ⟨_, _, hrun, hs⟩
  | append_singleton ls' l' ih =>
      generalize hall : ls ++ l :: (ls' ++ [l']) = all at h
      rw [← List.cons_append, ← List.append_assoc] at hall
      cases h with
      | init => exact absurd hall (by simp)
      | step hrun hs =>
          obtain ⟨rfl, -⟩ := List.append_inj' hall rfl
          exact ih hrun

/-- The steps of a run that are computed as long as they are enabled. -/
theorem Run.exec {f : ℓ → σ → Option σ} {s' : σ} (hs : S.Run ls s)
    (hstep : ∀ l s₁ s₂, f l s₁ = some s₂ → S.step s₁ l s₂)
    (hrun : ls'.foldlM (fun s l => f l s) s = some s') : S.Run (ls ++ ls') s' := by
  induction ls' generalizing ls s with
  | nil =>
      cases hrun
      rwa [List.append_nil]
  | cons l ls' ih =>
      rw [List.foldlM_cons] at hrun
      obtain ⟨s₁, hfirst, hrest⟩ := Option.bind_eq_some_iff.mp hrun
      have hnext := ih (.step hs (hstep l s s₁ hfirst)) hrest
      rwa [List.append_assoc] at hnext

/-- The simulation rule: the other system makes the visible steps. -/
theorem Run.simulate {τ : Type w} {m : Type x} {A : System τ m} {visible : ℓ → Option m}
    {R : σ → τ → Prop} (hinit : ∀ s, S.init s → ∃ a, A.init a ∧ R s a)
    (hstep : ∀ s a l s', R s a → S.step s l s' →
      ∃ a', R s' a' ∧ (visible l).elim (a' = a) fun e => A.step a e a')
    (h : S.Run ls s) : ∃ a, A.Run (ls.filterMap visible) a ∧ R s a := by
  induction h with
  | init h =>
      obtain ⟨a, ha, hR⟩ := hinit _ h
      exact ⟨a, .init ha, hR⟩
  | step _ hs ih =>
      rename_i l _
      obtain ⟨a, ha, hR⟩ := ih
      obtain ⟨a', hR', hmatch⟩ := hstep _ _ _ _ hR hs
      refine ⟨a', ?_, hR'⟩
      rw [List.filterMap_append, List.filterMap_cons]
      cases hvisible : visible l with
      | none =>
          rw [hvisible] at hmatch
          obtain rfl : a' = a := hmatch
          simpa using ha
      | some e =>
          rw [hvisible] at hmatch
          exact .step ha hmatch

end Protocol.System
