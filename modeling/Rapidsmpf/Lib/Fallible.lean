import Mathlib

/-!
# Computations that may fail

Fallible code is modelled in `Except`. `bind_eq_ok` takes a successful composition apart, and
`foldlM_invariant` is the loop rule: what every successful iteration keeps holds after the loop.
`run` takes steps one after the other.
-/

namespace Fallible

universe u v w

variable {ε : Type u} {α β : Type v} {γ : Type w}

/-- A composition succeeds exactly when both parts do. -/
theorem bind_eq_ok {x : Except ε α} {f : α → Except ε β} {b : β} :
    (x >>= f) = .ok b ↔ ∃ a, x = .ok a ∧ f a = .ok b := by
  cases x with
  | error e => simp [bind, Except.bind]
  | ok a => simp [bind, Except.bind]

/-- A composition fails when its first part does, or its second one. -/
theorem bind_eq_error {x : Except ε α} {f : α → Except ε β} {e : ε} :
    (x >>= f) = .error e ↔ x = .error e ∨ ∃ a, x = .ok a ∧ f a = .error e := by
  cases x with
  | error e => simp [bind, Except.bind]
  | ok a => simp [bind, Except.bind]

/-- A result that is only converted fails when its computation does. -/
theorem bind_pure_eq_error {x : Except ε α} {g : α → β} {e : ε} :
    (x >>= fun a => pure (g a)) = .error e ↔ x = .error e := by
  cases x <;> simp [bind, Except.bind, pure, Except.pure]

/-- The value of a successful computation. -/
theorem pure_eq_ok {a b : α} : (pure a : Except ε α) = .ok b ↔ a = b := by
  simp [pure, Except.pure]

/-- A computation has a value exactly when it succeeds. -/
theorem to_option_eq_some {x : Except ε α} {a : α} : x.toOption = some a ↔ x = .ok a := by
  cases x <;> simp [Except.toOption]

/-- A check at the head of a sequence: it passes exactly when its condition does not hold. -/
theorem check_eq_ok {p : Prop} [Decidable p] {e : ε} {f : α → Except ε β} {x : Except ε β}
    {b : β} : (if p then throw e >>= f else x) = .ok b ↔ ¬ p ∧ x = .ok b := by
  by_cases hp : p <;> simp [hp, throw, throwThe, MonadExceptOf.throw, bind, Except.bind]

/-- Loop rule: an invariant of every iteration over the members of the list holds at its end. -/
theorem foldlM_invariant {I : β → Prop} {f : β → γ → Except ε β} {l : List γ} {b b' : β}
    (hstep : ∀ x ∈ l, ∀ c c', I c → f c x = .ok c' → I c')
    (h : l.foldlM f b = .ok b') (hb : I b) : I b' := by
  induction l generalizing b with
  | nil =>
      rw [List.foldlM_nil, pure_eq_ok] at h
      exact h ▸ hb
  | cons x l ih =>
      rw [List.foldlM_cons, bind_eq_ok] at h
      obtain ⟨c, hc, hrest⟩ := h
      exact ih (fun y hy => hstep y (List.mem_cons_of_mem x hy)) hrest
        (hstep x List.mem_cons_self _ _ hb hc)

/-- A loop that ends well does so in each of its iterations. -/
theorem foldlM_each {f : β → γ → Except ε β} {l : List γ} {b b' : β}
    (h : l.foldlM f b = .ok b') : ∀ x ∈ l, ∃ c c', f c x = .ok c' := by
  induction l generalizing b with
  | nil => exact fun x hx => nomatch hx
  | cons y l ih =>
      rw [List.foldlM_cons, bind_eq_ok] at h
      obtain ⟨c, hc, hrest⟩ := h
      intro x hx
      rcases List.mem_cons.mp hx with rfl | hx
      · exact ⟨b, c, hc⟩
      · exact ih hrest x hx

/-- An exception of a loop is one of an iteration. -/
theorem foldlM_error {f : β → γ → Except ε β} {l : List γ} {b : β} {e : ε}
    (h : l.foldlM f b = .error e) : ∃ c, ∃ x ∈ l, f c x = .error e := by
  induction l generalizing b with
  | nil => cases h
  | cons y l ih =>
      rw [List.foldlM_cons, bind_eq_error] at h
      rcases h with h | ⟨c, -, h⟩
      · exact ⟨b, y, List.mem_cons_self, h⟩
      · obtain ⟨c', x, hx, hthrow⟩ := ih h
        exact ⟨c', x, List.mem_cons_of_mem y hx, hthrow⟩

/-- Steps in sequence, up to the first one that fails. -/
def run (step : γ → β → Except ε β) (ls : List γ) (b : β) : Except ε β :=
  ls.foldlM (fun b l => step l b) b

end Fallible
