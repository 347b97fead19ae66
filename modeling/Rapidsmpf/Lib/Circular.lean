import Mathlib

/-!
# Positions in a circle

The positions `0 .. n - 1` in a circle, each with a successor and a predecessor. `flow_le` is the
conservation rule for a token that is passed around: what a position hands on it produced or got
from its predecessor, and nothing is handed to the position it came from. Then no position hands
on more than was produced, and nothing comes back.
-/

namespace Circular

variable {n r o : Nat}

/-- The next position. -/
def succ (n r : Nat) : Nat := (r + 1) % n

/-- The position before. -/
def pred (n r : Nat) : Nat := (r + n - 1) % n

theorem succ_eq (hr : r < n) : succ n r = if r + 1 = n then 0 else r + 1 := by
  unfold succ
  split
  · next h => rw [h, Nat.mod_self]
  · exact Nat.mod_eq_of_lt (by omega)

theorem pred_eq (hr : r < n) : pred n r = if r = 0 then n - 1 else r - 1 := by
  unfold pred
  split
  · next h =>
    subst h
    rw [Nat.zero_add]
    exact Nat.mod_eq_of_lt (by omega)
  · have hsub : r + n - 1 = r - 1 + n := by omega
    rw [hsub, Nat.add_mod_right]
    exact Nat.mod_eq_of_lt (by omega)

theorem succ_lt (hr : r < n) : succ n r < n := Nat.mod_lt _ (by omega)

theorem pred_lt (hr : r < n) : pred n r < n := Nat.mod_lt _ (by omega)

theorem succ_pred (hr : r < n) : succ n (pred n r) = r := by
  rw [succ_eq (pred_lt hr), pred_eq hr]
  split <;> split <;> omega

theorem pred_succ (hr : r < n) : pred n (succ n r) = r := by
  rw [pred_eq (succ_lt hr), succ_eq hr]
  split <;> split <;> omega

theorem succ_ne (hn : 1 < n) (hr : r < n) : succ n r ≠ r := by
  rw [succ_eq hr]
  split <;> omega

theorem pred_ne (hn : 1 < n) (hr : r < n) : pred n r ≠ r := by
  rw [pred_eq hr]
  split <;> omega

/-- Every position is some number of steps after a given one. -/
theorem exists_steps (ho : o < n) (hr : r < n) : ∃ k < n, (o + k) % n = r := by
  by_cases hle : o ≤ r
  · exact ⟨r - o, by omega, by rw [Nat.add_sub_cancel' hle, Nat.mod_eq_of_lt hr]⟩
  · refine ⟨r + n - o, by omega, ?_⟩
    have hsum : o + (r + n - o) = r + n := by omega
    rw [hsum, Nat.add_mod_right, Nat.mod_eq_of_lt hr]

/-- The token of the position `o`: `x r` is how often the position `r` handed it on and `l r` how
often it was produced there. -/
theorem flow_le (hn : 1 < n) (ho : o < n) {x l : Nat → Nat} (hl : ∀ r < n, r ≠ o → l r = 0)
    (hx : ∀ r < n, x r ≤ l r + if succ n r = o then 0 else x (pred n r)) :
    (∀ r < n, x r ≤ l o) ∧ x (pred n o) = 0 := by
  have hback : x (pred n o) = 0 := by
    have hlast := hx _ (pred_lt ho)
    rw [succ_pred ho, if_pos rfl, hl _ (pred_lt ho) (pred_ne hn ho)] at hlast
    exact Nat.le_zero.mp hlast
  refine ⟨fun r hr => ?_, hback⟩
  -- by induction on the number of steps from `o`
  have hsteps : ∀ k < n, x ((o + k) % n) ≤ l o := by
    intro k
    induction k with
    | zero =>
        intro _
        rw [Nat.add_zero, Nat.mod_eq_of_lt ho]
        have hfirst := hx o ho
        rw [if_neg (succ_ne hn ho), hback] at hfirst
        exact hfirst
    | succ k ih =>
        intro hk
        have hprev := ih (by omega)
        have hlt : (o + (k + 1)) % n < n := Nat.mod_lt _ (by omega)
        have hne : (o + (k + 1)) % n ≠ o := by
          by_cases hwrap : o + (k + 1) < n
          · rw [Nat.mod_eq_of_lt hwrap]
            omega
          · rw [Nat.mod_eq_sub_mod (by omega), Nat.mod_eq_of_lt (by omega)]
            omega
        have hsucc : succ n ((o + k) % n) = (o + (k + 1)) % n := by
          rw [succ, Nat.mod_add_mod, Nat.add_assoc]
        have hpred : pred n ((o + (k + 1)) % n) = (o + k) % n := by
          rw [← hsucc, pred_succ (Nat.mod_lt _ (by omega))]
        have hstep := hx _ hlt
        rw [hl _ hlt hne, hpred] at hstep
        split at hstep <;> omega
  obtain ⟨k, hk, rfl⟩ := exists_steps ho hr
  exact hsteps k hk

end Circular
