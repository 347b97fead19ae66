import Mathlib
import Rapidsmpf.Lib.Fallible

/-!
# Labelled transition systems

A protocol is given by its initial states and a labelled step relation. `System.Reach ok` holds
of the states reached by runs whose every step meets the condition `ok`, a condition on the state
before the step and on its label; `System.Reachable` is the case without a condition. Safety
results are proved by `Reach.invariant`: what holds initially and is kept by every admitted step
holds in every state reached.
-/

namespace Protocol

universe u v w w'

/-- A labelled transition system over the states `σ` with step labels `ℓ`. -/
structure System (σ : Type u) (ℓ : Type v) where
  init : σ → Prop
  step : σ → ℓ → σ → Prop

namespace System

variable {σ : Type u} {ℓ : Type v} {S : System σ ℓ} {ok ok' : σ → ℓ → Prop} {s s' : σ}

/-- The states reached by runs whose every step, seen from the state before it, meets `ok`. -/
inductive Reach (S : System σ ℓ) (ok : σ → ℓ → Prop) : σ → Prop where
  | init {s : σ} : S.init s → Reach S ok s
  | step {s s' : σ} {l : ℓ} : Reach S ok s → ok s l → S.step s l s' → Reach S ok s'

/-- The states reached by any run at all. -/
def Reachable (S : System σ ℓ) (s : σ) : Prop :=
  S.Reach (fun _ _ => True) s

/-- The invariant rule for runs under a condition. -/
theorem Reach.invariant {I : σ → Prop} (hinit : ∀ s, S.init s → I s)
    (hstep : ∀ s l s', I s → ok s l → S.step s l s' → I s') (h : S.Reach ok s) : I s := by
  induction h with
  | init h => exact hinit _ h
  | step _ hok hs ih => exact hstep _ _ _ ih hok hs

/-- A weaker condition reaches at least as much. -/
theorem Reach.mono (himp : ∀ s l, ok s l → ok' s l) (h : S.Reach ok s) : S.Reach ok' s := by
  induction h with
  | init h => exact .init h
  | step _ hok hs ih => exact .step ih (himp _ _ hok) hs

/-- Initial states are reachable. -/
theorem Reachable.of_init (h : S.init s) : S.Reachable s :=
  Reach.init h

/-- A step from a reachable state reaches its successor. -/
theorem Reachable.next {l : ℓ} (h : S.Reachable s) (hs : S.step s l s') : S.Reachable s' :=
  Reach.step h trivial hs

/-- The invariant rule for unrestricted runs. -/
theorem Reachable.invariant {I : σ → Prop} (hinit : ∀ s, S.init s → I s)
    (hstep : ∀ s l s', I s → S.step s l s' → I s') (h : S.Reachable s) : I s :=
  Reach.invariant hinit (fun s l s' hi _ hs => hstep s l s' hi hs) h

/-- A system whose steps, seen through `view`, are steps of another one or change nothing there
reaches only what the other one does. -/
theorem Reachable.refines {τ : Type w} {m : Type w'} {T : System τ m} {view : σ → τ}
    (hinit : ∀ s, S.init s → T.Reachable (view s))
    (hstep : ∀ s l s', S.Reachable s → S.step s l s' →
      view s' = view s ∨ ∃ l', T.step (view s) l' (view s'))
    (h : S.Reachable s) : T.Reachable (view s) := by
  have hboth : S.Reachable s ∧ T.Reachable (view s) := by
    refine h.invariant (I := fun s => S.Reachable s ∧ T.Reachable (view s)) ?_ ?_
    · intro s hs
      exact ⟨.of_init hs, hinit s hs⟩
    · intro s l s' ⟨hs, hview⟩ hnext
      refine ⟨hs.next hnext, ?_⟩
      rcases hstep s l s' hs hnext with hsame | ⟨l', hl'⟩
      · rw [hsame]
        exact hview
      · exact hview.next hl'
  exact hboth.2

/-- A sequence of computed steps reaches the state it ends in. -/
theorem Reach.run {ε : Type w} {f : ℓ → σ → Except ε σ} {ls : List ℓ} (hs : S.Reach ok s)
    (hls : ∀ l ∈ ls, ∀ s₁ s₂, f l s₁ = .ok s₂ → ok s₁ l ∧ S.step s₁ l s₂)
    (hrun : Fallible.run f ls s = .ok s') : S.Reach ok s' := by
  refine Fallible.foldlM_invariant (fun l hl s₁ s₂ h₁ hstep => ?_) hrun hs
  obtain ⟨hok, hnext⟩ := hls l hl s₁ s₂ hstep
  exact .step h₁ hok hnext

/-- A sequence of steps that are computed as long as they are enabled. -/
theorem Reach.exec {f : ℓ → σ → Option σ} {ls : List ℓ} (hs : S.Reach ok s)
    (hls : ∀ l ∈ ls, ∀ s₁ s₂, f l s₁ = some s₂ → ok s₁ l ∧ S.step s₁ l s₂)
    (hrun : ls.foldlM (fun s l => f l s) s = some s') : S.Reach ok s' := by
  induction ls generalizing s with
  | nil =>
      cases hrun
      exact hs
  | cons l ls ih =>
      rw [List.foldlM_cons] at hrun
      obtain ⟨s₁, hfirst, hrest⟩ := Option.bind_eq_some_iff.mp hrun
      obtain ⟨hok, hnext⟩ := hls l List.mem_cons_self s s₁ hfirst
      exact ih (.step hs hok hnext) (fun l' hl' => hls l' (List.mem_cons_of_mem l hl')) hrest

/-- The states reached from a state by any number of steps. -/
def After (S : System σ ℓ) (s : σ) : σ → Prop :=
  Relation.ReflTransGen (fun s₁ s₂ => ∃ l, S.step s₁ l s₂) s

/-- The invariant rule for what comes after a state. -/
theorem After.invariant {I : σ → Prop} (hstep : ∀ s l s', I s → S.step s l s' → I s')
    (h : S.After s s') (hs : I s) : I s' := by
  induction h with
  | refl => exact hs
  | tail _ hlast ih =>
      obtain ⟨l, hl⟩ := hlast
      exact hstep _ l _ ih hl

/-- No run from a reachable state lowers a measure forever. -/
theorem Reachable.not_infinite {μ : σ → Nat} {run : Nat → σ} (h : S.Reachable (run 0))
    (hstep : ∀ s l s', S.Reachable s → S.step s l s' → μ s' < μ s) :
    ¬ ∀ n, ∃ l, S.step (run n) l (run (n + 1)) := by
  intro hrun
  have hlower : ∀ n, S.Reachable (run n) ∧ μ (run n) + n ≤ μ (run 0) := by
    intro n
    induction n with
    | zero => exact ⟨h, Nat.le_refl _⟩
    | succ n ih =>
        obtain ⟨l, hl⟩ := hrun n
        have hless := hstep _ l _ ih.1 hl
        exact ⟨ih.1.next hl, by omega⟩
  have hlast := (hlower (μ (run 0) + 1)).2
  omega

/-- No run lowers a measure forever. -/
theorem not_infinite_of_measure {μ : σ → Nat} (hstep : ∀ s l s', S.step s l s' → μ s' < μ s)
    (run : Nat → σ) : ¬ ∀ n, ∃ l, S.step (run n) l (run (n + 1)) := by
  -- every state is reachable where every state is initial
  have hreach : System.Reachable ⟨fun _ => True, S.step⟩ (run 0) := .of_init trivial
  exact hreach.not_infinite fun s l s' _ h => hstep s l s' h

end System

end Protocol
