import Mathlib

/-!
# Even splits of an interval

The numbers below `total` are dealt out to `parts` parts, `i` to the part `i * parts / total`.
`cut` is where a part begins; the parts are intervals between cuts, and no two of them differ in
length by more than one.
-/

namespace EvenSplit

variable {parts total : Nat}

/-- Where a part begins. -/
def cut (parts total r : Nat) : Nat := (r * total + (parts - 1)) / parts

theorem cut_le_iff (hparts : 0 < parts) {r i : Nat} :
    cut parts total r ≤ i ↔ r * total ≤ i * parts := by
  rw [cut, ← Nat.lt_succ_iff, Nat.div_lt_iff_lt_mul hparts, Nat.succ_mul]
  omega

theorem lt_cut_iff (hparts : 0 < parts) {r i : Nat} :
    i < cut parts total r ↔ i * parts < r * total := by
  rw [← not_le, cut_le_iff hparts, not_le]

theorem cut_zero (hparts : 0 < parts) : cut parts total 0 = 0 :=
  Nat.le_zero.mp ((cut_le_iff hparts).mpr (by simp))

theorem cut_parts (hparts : 0 < parts) : cut parts total parts = total := by
  apply le_antisymm
  · exact (cut_le_iff hparts).mpr (Nat.mul_comm _ _).le
  · have hle : parts * total ≤ cut parts total parts * parts := (cut_le_iff hparts).mp le_rfl
    rw [Nat.mul_comm parts] at hle
    exact Nat.le_of_mul_le_mul_right hle hparts

theorem cut_mono (hparts : 0 < parts) {r s : Nat} (h : r ≤ s) :
    cut parts total r ≤ cut parts total s := by
  rw [cut_le_iff hparts]
  exact (Nat.mul_le_mul_right total h).trans ((cut_le_iff hparts).mp le_rfl)

/-- A number belongs to the part between the cuts around it. -/
theorem div_eq_iff (hparts : 0 < parts) (htotal : 0 < total) {i r : Nat} :
    i * parts / total = r ↔ cut parts total r ≤ i ∧ i < cut parts total (r + 1) := by
  rw [cut_le_iff hparts, lt_cut_iff hparts, Nat.div_eq_iff htotal]
  constructor
  · rintro ⟨hlow, hhigh⟩
    rw [Nat.succ_mul]
    omega
  · rintro ⟨hlow, hhigh⟩
    rw [Nat.succ_mul] at hhigh
    omega

/-- A part is no shorter and hardly longer than its share. -/
theorem cut_succ (hparts : 0 < parts) (r : Nat) :
    total / parts ≤ cut parts total (r + 1) - cut parts total r ∧
      cut parts total (r + 1) - cut parts total r ≤ total / parts + 1 := by
  have hmono : cut parts total r ≤ cut parts total (r + 1) := cut_mono hparts (Nat.le_succ r)
  obtain ⟨d, hd⟩ := Nat.exists_eq_add_of_le hmono
  have hsplit := Nat.div_add_mod total parts
  have hrest := Nat.mod_lt total hparts
  have hlow : r * total ≤ cut parts total r * parts := (cut_le_iff hparts).mp le_rfl
  have hhigh : (r + 1) * total ≤ cut parts total (r + 1) * parts := (cut_le_iff hparts).mp le_rfl
  -- the number in front of a cut lies in the part before
  have hbefore : ∀ s, cut parts total s * parts < s * total + parts := by
    intro s
    have hdiv := Nat.div_mul_le_self (s * total + (parts - 1)) parts
    rw [cut]
    omega
  have hlow' := hbefore r
  have hhigh' := hbefore (r + 1)
  rw [hd, Nat.add_sub_cancel_left]
  rw [hd, Nat.succ_mul, Nat.add_mul] at hhigh hhigh'
  generalize total / parts = q at *
  constructor
  · by_contra hlt
    have hmul : (d + 1) * parts ≤ q * parts := Nat.mul_le_mul_right parts (by omega)
    rw [Nat.succ_mul, Nat.mul_comm q] at hmul
    omega
  · by_contra hlt
    have hmul : (q + 2) * parts ≤ d * parts := Nat.mul_le_mul_right parts (by omega)
    rw [Nat.add_mul, Nat.mul_comm q] at hmul
    omega

/-- A part of the numbers below `total`, as a list. -/
theorem filter_range {start stop : Nat} (h : stop ≤ total) (hle : start ≤ stop) :
    (List.range total).filter (fun i => start ≤ i ∧ i < stop) =
      List.range' start (stop - start) := by
  have hsplit : List.range total =
      List.range' 0 start ++ (List.range' start (stop - start) ++
        List.range' stop (total - stop)) := by
    have hmiddle := List.range'_append_1 (s := start) (m := stop - start) (n := total - stop)
    have hall := List.range'_append_1 (s := 0) (m := start) (n := stop - start + (total - stop))
    rw [Nat.add_sub_cancel' hle] at hmiddle
    rw [Nat.zero_add] at hall
    rw [hmiddle, hall, List.range_eq_range']
    congr 1
    omega
  rw [hsplit, List.filter_append, List.filter_append]
  have hfront : (List.range' 0 start).filter (fun i => decide (start ≤ i ∧ i < stop)) = [] := by
    refine List.filter_eq_nil_iff.mpr fun i hi => ?_
    rw [List.mem_range'_1] at hi
    simp only [decide_eq_true_eq]
    omega
  have hback : (List.range' stop (total - stop)).filter
      (fun i => decide (start ≤ i ∧ i < stop)) = [] := by
    refine List.filter_eq_nil_iff.mpr fun i hi => ?_
    rw [List.mem_range'_1] at hi
    simp only [decide_eq_true_eq]
    omega
  have hself : (List.range' start (stop - start)).filter
      (fun i => decide (start ≤ i ∧ i < stop)) = List.range' start (stop - start) := by
    refine List.filter_eq_self.mpr fun i hi => ?_
    rw [List.mem_range'_1] at hi
    simp only [decide_eq_true_eq]
    omega
  rw [hfront, hback, hself, List.nil_append, List.append_nil]

end EvenSplit
