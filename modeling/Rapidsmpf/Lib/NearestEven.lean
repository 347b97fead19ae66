import Mathlib

/-!
# Rounding to a number of bits

The nearest number with a significand of at most `p` bits, and the one with the even significand of
two that are as near. `round_eq_iff` says which numbers are rounded to themselves.
-/

namespace NearestEven

/-- The exponent of the last bit that is kept. -/
def quantum (p n : Nat) : Nat := n.size - p

/-- The nearest number with `p` bits. -/
def round (p n : Nat) : Nat :=
  let unit := 2 ^ quantum p n
  let significand := n / unit
  let rest := n % unit
  if 2 * rest < unit ∨ 2 * rest = unit ∧ significand % 2 = 0 then significand * unit
  else (significand + 1) * unit

/-- A number with a significand of at most `p` bits. -/
def Representable (p n : Nat) : Prop := ∃ m e, m < 2 ^ p ∧ n = m * 2 ^ e

variable {p n : Nat}

theorem significand_lt (p n : Nat) : n / 2 ^ quantum p n < 2 ^ p := by
  rw [Nat.div_lt_iff_lt_mul (Nat.two_pow_pos _), ← pow_add]
  have hsize : n < 2 ^ n.size := Nat.lt_size_self n
  exact hsize.trans_le (Nat.pow_le_pow_right (by decide) (by rw [quantum]; omega))

/-- The result is between the multiples of the unit around the number. -/
theorem round_eq_or (p n : Nat) : round p n = n / 2 ^ quantum p n * 2 ^ quantum p n ∨
    round p n = (n / 2 ^ quantum p n + 1) * 2 ^ quantum p n := by
  rw [round]
  split
  · exact .inl rfl
  · exact .inr rfl

/-- A multiple of the unit is kept. -/
theorem round_of_dvd (h : 2 ^ quantum p n ∣ n) : round p n = n := by
  have hrest : n % 2 ^ quantum p n = 0 := Nat.mod_eq_zero_of_dvd h
  rw [round, hrest, if_pos (.inl (Nat.two_pow_pos _)), Nat.div_mul_cancel h]

theorem round_of_representable (h : Representable p n) : round p n = n := by
  obtain ⟨m, e, hm, hn⟩ := h
  refine round_of_dvd ?_
  by_cases hle : quantum p n ≤ e
  · have hdvd : 2 ^ e ∣ n := ⟨m, hn.trans (Nat.mul_comm _ _)⟩
    exact (Nat.pow_dvd_pow 2 hle).trans hdvd
  · -- the significand would have more bits than the number has behind its last one
    exfalso
    have hlow : 2 ^ (n.size - 1) ≤ n := Nat.lt_size.mp (by rw [quantum] at hle; omega)
    have hhigh : n < 2 ^ (p + e) := by
      rw [hn, pow_add]
      exact Nat.mul_lt_mul_of_pos_right hm (Nat.two_pow_pos e)
    have hexp : n.size - 1 < p + e :=
      (Nat.pow_lt_pow_iff_right (by decide)).mp (hlow.trans_lt hhigh)
    rw [quantum] at hle
    omega

/-- The numbers that are rounded to themselves. -/
theorem round_eq_iff : round p n = n ↔ Representable p n := by
  refine ⟨fun h => ?_, round_of_representable⟩
  have hunit : 0 < 2 ^ quantum p n := Nat.two_pow_pos _
  rcases round_eq_or p n with hround | hround
  · exact ⟨_, _, significand_lt p n, h.symm.trans hround⟩
  · have hlt : n < 2 ^ quantum p n * (n / 2 ^ quantum p n + 1) := Nat.lt_mul_div_succ n hunit
    rw [Nat.mul_comm, ← hround, h] at hlt
    exact absurd hlt (lt_irrefl n)

/-- Rounding does not leave the range below a power of two. -/
theorem round_le_two_pow {k : Nat} (hp : 0 < p) (h : n ≤ 2 ^ k) : round p n ≤ 2 ^ k := by
  rcases h.eq_or_lt with rfl | hlt
  · exact (round_of_representable ⟨1, k, Nat.one_lt_two_pow hp.ne', (one_mul _).symm⟩).le
  · have hsize : n.size ≤ k := Nat.size_le.mpr hlt
    have hsignificand := significand_lt p n
    by_cases hzero : quantum p n = 0
    · rw [round_of_dvd (by rw [hzero]; exact one_dvd n)]
      exact h
    · have htop : (n / 2 ^ quantum p n + 1) * 2 ^ quantum p n ≤ 2 ^ k := by
        calc (n / 2 ^ quantum p n + 1) * 2 ^ quantum p n
            ≤ 2 ^ p * 2 ^ quantum p n := Nat.mul_le_mul_right _ hsignificand
          _ = 2 ^ n.size := by rw [← pow_add, quantum]; congr 1; rw [quantum] at hzero; omega
          _ ≤ 2 ^ k := Nat.pow_le_pow_right (by decide) hsize
      rcases round_eq_or p n with hround | hround
      · rw [hround]
        exact (Nat.mul_le_mul_right _ (Nat.le_succ _)).trans htop
      · rw [hround]
        exact htop

end NearestEven
