import Mathlib

/-!
# Front-loaded splits of an interval

The numbers below `total` are dealt out in blocks of one size, so that the blocks behind the last
number are empty. `cut` is where a block begins.
-/

namespace FrontLoaded

variable {size total k l : Nat}

/-- Where a block begins. -/
def cut (size total k : Nat) : Nat := min (k * size) total

/-- The number of elements of a block. -/
def width (size total k : Nat) : Nat := cut size total (k + 1) - cut size total k

theorem cut_zero : cut size total 0 = 0 := by
  rw [cut, Nat.zero_mul, Nat.zero_min]

theorem cut_le_total : cut size total k ≤ total :=
  Nat.min_le_right _ _

theorem cut_mono (h : k ≤ l) : cut size total k ≤ cut size total l :=
  min_le_min_right total (Nat.mul_le_mul_right size h)

theorem cut_eq_total (h : total ≤ k * size) : cut size total k = total :=
  Nat.min_eq_right h

theorem width_le : width size total k ≤ size := by
  have hmul : (k + 1) * size = k * size + size := Nat.succ_mul k size
  rw [width, cut, cut, hmul]
  omega

/-- No block is shorter than a later one. -/
theorem width_anti (h : k ≤ l) : width size total l ≤ width size total k := by
  rcases h.eq_or_lt with rfl | hlt
  · exact le_rfl
  have hmul : (k + 1) * size = k * size + size := Nat.succ_mul k size
  have hle : (k + 1) * size ≤ l * size := Nat.mul_le_mul_right size hlt
  by_cases hfull : total ≤ l * size
  · -- the later block is empty
    have hend : cut size total (l + 1) ≤ total := cut_le_total
    rw [width, cut_eq_total hfull]
    omega
  · -- the earlier block is full
    have hwidth : width size total k = size := by
      rw [width, cut, cut, hmul]
      omega
    rw [hwidth]
    exact width_le

/-- The blocks reach the end, and not further than the number of parts. -/
theorem le_mul_ceil {parts : Nat} (hparts : 0 < parts) : total ≤ parts * (total ⌈/⌉ parts) :=
  (ceilDiv_le_iff_le_mul hparts).mp le_rfl

theorem mul_ceil_lt {parts : Nat} (hparts : 0 < parts) :
    parts * (total ⌈/⌉ parts) < total + parts := by
  have hle : parts * ((total + parts - 1) / parts) ≤ total + parts - 1 := Nat.mul_div_le _ _
  rw [Nat.ceilDiv_eq_add_pred_div]
  omega

/-- The quotient, and one more if there is a remainder. -/
theorem div_add_eq_ceil {parts : Nat} (hparts : 0 < parts) :
    total / parts + (if total % parts ≠ 0 then 1 else 0) = total ⌈/⌉ parts := by
  have hsplit : parts * (total / parts) + total % parts = total := Nat.div_add_mod total parts
  have hlt : total % parts < parts := Nat.mod_lt total hparts
  refine (le_antisymm ((ceilDiv_le_iff_le_mul hparts).mpr ?_) ?_).symm
  · rw [Nat.mul_add]
    split
    · omega
    · omega
  · split
    · next hne =>
        by_contra hge
        have hle : parts * (total ⌈/⌉ parts) ≤ parts * (total / parts) :=
          Nat.mul_le_mul_left parts (by omega)
        have hreach : total ≤ parts * (total ⌈/⌉ parts) := le_mul_ceil hparts
        omega
    · have hfloor : total ⌊/⌋ parts ≤ total ⌈/⌉ parts := floorDiv_le_ceilDiv
      rwa [Nat.floorDiv_eq_div] at hfloor

end FrontLoaded
