import Rapidsmpf.Lib.Doubling
import Rapidsmpf.Coll.AllReduce

/-!
# Who exchanges what with whom in an AllReduce

The logical ranks, the pairs of ranks that exchange a message in each stage, and the values they
exchange: `carried`. After the last stage every rank has the value of `bracketing`, in which the
inputs stand in rank order.
-/

namespace Rapidsmpf.AllReduce

open Doubling

variable {α : Type} {n : Nat}

/-! ## Logical ranks -/

theorem nearest_pow2_le (hn : 0 < n) : nearestPow2 n ≤ n :=
  Nat.log2_self_le hn.ne'

theorem lt_two_mul_nearest_pow2 (n : Nat) : n < 2 * nearestPow2 n := by
  rw [nearestPow2, ← pow_succ']
  exact Nat.lt_log2_self

/-- The remainder is smaller than the power of two. -/
theorem remainder_lt (hn : 0 < n) : nonPow2Remainder n < nearestPow2 n := by
  have hle := nearest_pow2_le hn
  have hlt := lt_two_mul_nearest_pow2 n
  rw [nonPow2Remainder]
  omega

theorem nearest_pow2_add_remainder (hn : 0 < n) : nearestPow2 n + nonPow2Remainder n = n := by
  have hle := nearest_pow2_le hn
  rw [nonPow2Remainder]
  omega

/-- The logical ranks are those of the ranks below the power of two. -/
theorem logical_rank_eq_some_iff (hn : 0 < n) {r l : Nat} (hr : r < n) :
    logicalRankOf n r = some l ↔ l < nearestPow2 n ∧ physicalRank n l = r := by
  have hlt := remainder_lt hn
  have hsum := nearest_pow2_add_remainder hn
  unfold logicalRankOf physicalRank
  by_cases hrem : r < 2 * nonPow2Remainder n
  · rw [if_pos hrem]
    by_cases heven : r % 2 = 0
    · rw [if_pos heven]
      refine iff_of_false (by simp) ?_
      rintro ⟨hl, hphys⟩
      split at hphys <;> omega
    · rw [if_neg heven, Option.some.injEq]
      constructor
      · rintro rfl
        rw [if_pos (by omega)]
        omega
      · rintro ⟨hl, hphys⟩
        split at hphys <;> omega
  · rw [if_neg hrem, Option.some.injEq]
    constructor
    · rintro rfl
      rw [if_neg (by omega)]
      omega
    · rintro ⟨hl, hphys⟩
      split at hphys <;> omega

theorem physical_rank_lt (hn : 0 < n) {l : Nat} (hl : l < nearestPow2 n) :
    physicalRank n l < n := by
  have hlt := remainder_lt hn
  have hsum := nearest_pow2_add_remainder hn
  unfold physicalRank
  split <;> omega

/-- The order of the logical ranks is that of the ranks. -/
theorem physical_rank_lt_iff {l l' : Nat} : physicalRank n l < physicalRank n l' ↔ l < l' := by
  unfold physicalRank
  split <;> split <;> omega

theorem physical_rank_inj {l l' : Nat} : physicalRank n l = physicalRank n l' ↔ l = l' := by
  unfold physicalRank
  split <;> split <;> omega

/-- No even rank of the remainder has a logical rank. -/
theorem physical_rank_ne {q l : Nat} (hq : q < 2 * nonPow2Remainder n) (heven : q % 2 = 0) :
    physicalRank n l ≠ q := by
  unfold physicalRank
  split <;> omega

theorem logical_physical_rank (hn : 0 < n) {l : Nat} (hl : l < nearestPow2 n) :
    logicalRankOf n (physicalRank n l) = some l :=
  (logical_rank_eq_some_iff hn (physical_rank_lt hn hl)).mpr ⟨hl, rfl⟩

theorem partner_lt {l j : Nat} (hl : l < nearestPow2 n) (hj : j < Nat.log2 n) :
    l ^^^ 2 ^ j < nearestPow2 n :=
  Nat.xor_lt_two_pow hl (Nat.pow_lt_pow_right (by decide) hj)

theorem partner_ne (l j : Nat) : l ^^^ 2 ^ j ≠ l := by
  intro h
  have hzero : 2 ^ j = 0 := Nat.xor_right_injective (h.trans (Nat.xor_zero l).symm)
  exact (Nat.two_pow_pos j).ne' hzero

theorem partner_partner (l j : Nat) : l ^^^ 2 ^ j ^^^ 2 ^ j = l := by
  rw [Nat.xor_assoc, Nat.xor_self, Nat.xor_zero]

/-! ## The exchanges -/

/-- `Exchanges n st q r`: in the stage `st` the rank `q` sends a message to the rank `r`. -/
inductive Exchanges (n : Nat) : Stage → Nat → Nat → Prop where
  | preRemainder {q : Nat} : q < 2 * nonPow2Remainder n → q % 2 = 0 →
      Exchanges n .preRemainder q (q + 1)
  | butterfly {l j : Nat} : l < nearestPow2 n → j < Nat.log2 n →
      Exchanges n (.butterfly (2 ^ j)) (physicalRank n l) (physicalRank n (l ^^^ 2 ^ j))
  | postRemainder {q : Nat} : q < 2 * nonPow2Remainder n → q % 2 = 0 →
      Exchanges n .postRemainder (q + 1) q

namespace Exchanges

variable {st st' : Stage} {q r : Nat}

theorem sender_lt (hn : 0 < n) (h : Exchanges n st q r) : q < n := by
  have hlt := remainder_lt hn
  have hsum := nearest_pow2_add_remainder hn
  cases h with
  | preRemainder hq heven => omega
  | butterfly hl hj => exact physical_rank_lt hn hl
  | postRemainder hq heven => omega

theorem receiver_lt (hn : 0 < n) (h : Exchanges n st q r) : r < n := by
  have hlt := remainder_lt hn
  have hsum := nearest_pow2_add_remainder hn
  cases h with
  | preRemainder hq heven => omega
  | butterfly hl hj => exact physical_rank_lt hn (partner_lt hl hj)
  | postRemainder hq heven => omega

theorem ne (h : Exchanges n st q r) : q ≠ r := by
  cases h with
  | preRemainder hq heven => omega
  | @butterfly l j hl hj =>
      rw [Ne, physical_rank_inj]
      exact (partner_ne l j).symm
  | postRemainder hq heven => omega

theorem preRemainder_iff : Exchanges n .preRemainder q r
    ↔ q < 2 * nonPow2Remainder n ∧ q % 2 = 0 ∧ r = q + 1 := by
  constructor
  · rintro ⟨hq, heven⟩
    exact ⟨‹_›, ‹_›, rfl⟩
  · rintro ⟨hq, heven, rfl⟩
    exact .preRemainder hq heven

theorem postRemainder_iff : Exchanges n .postRemainder q r
    ↔ r < 2 * nonPow2Remainder n ∧ r % 2 = 0 ∧ q = r + 1 := by
  constructor
  · rintro ⟨hq, heven⟩
    exact ⟨‹_›, ‹_›, rfl⟩
  · rintro ⟨hq, heven, rfl⟩
    exact .postRemainder hq heven

theorem butterfly_iff {mask : Nat} : Exchanges n (.butterfly mask) q r
    ↔ ∃ l j, l < nearestPow2 n ∧ j < Nat.log2 n ∧ mask = 2 ^ j ∧ q = physicalRank n l
      ∧ r = physicalRank n (l ^^^ 2 ^ j) := by
  constructor
  · rintro ⟨⟩
    exact ⟨_, _, ‹_›, ‹_›, rfl, rfl, rfl⟩
  · rintro ⟨l, j, hl, hj, rfl, rfl, rfl⟩
    exact .butterfly hl hj

/-- Two ranks exchange at most one message in each direction. -/
theorem unique (h : Exchanges n st q r) (h' : Exchanges n st' q r) : st = st' := by
  cases h with
  | preRemainder hq heven =>
      cases st' with
      | preRemainder => rfl
      | butterfly mask =>
          obtain ⟨l, j, hl, hj, -, hq', -⟩ := butterfly_iff.mp h'
          exact absurd hq'.symm (physical_rank_ne hq heven)
      | postRemainder =>
          obtain ⟨-, heven', -⟩ := postRemainder_iff.mp h'
          omega
  | @butterfly l j hl hj =>
      cases st' with
      | preRemainder =>
          obtain ⟨hq, heven, -⟩ := preRemainder_iff.mp h'
          exact absurd rfl (physical_rank_ne hq heven)
      | butterfly mask =>
          obtain ⟨l', j', hl', hj', rfl, hq', hr'⟩ := butterfly_iff.mp h'
          obtain rfl := physical_rank_inj.mp hq'
          have hxor := physical_rank_inj.mp hr'
          have hpow : 2 ^ j = 2 ^ j' := Nat.xor_right_injective hxor
          rw [hpow]
      | postRemainder =>
          obtain ⟨hq, heven, -⟩ := postRemainder_iff.mp h'
          exact absurd rfl (physical_rank_ne hq heven)
  | postRemainder hq heven =>
      cases st' with
      | preRemainder =>
          obtain ⟨-, heven', -⟩ := preRemainder_iff.mp h'
          omega
      | butterfly mask =>
          obtain ⟨l, j, hl, hj, -, -, hr'⟩ := butterfly_iff.mp h'
          exact absurd hr'.symm (physical_rank_ne hq heven)
      | postRemainder => rfl

end Exchanges

/-! ## The values -/

/-- What a logical rank has before the first round: the ranks of the remainder come in pairs. -/
def leafOf (n l : Nat) : Tree :=
  if l < nonPow2Remainder n then .node (.leaf (2 * l)) (.leaf (2 * l + 1))
  else .leaf (l + nonPow2Remainder n)

/-- The bracketing of the result. -/
def bracketing (n : Nat) : Tree := block (leafOf n) (Nat.log2 n) 0

/-- The inputs stand in rank order, each exactly once. -/
theorem leaves_bracketing (hn : 0 < n) : (bracketing n).leaves = List.range n := by
  let start : Nat → Nat := fun l =>
    if l ≤ nonPow2Remainder n then 2 * l else l + nonPow2Remainder n
  have hmono : Monotone start := by
    intro l l' h
    simp only [start]
    split <;> split <;> omega
  have hleaf : ∀ l, (leafOf n l).leaves = List.range' (start l) (start (l + 1) - start l) := by
    intro l
    simp only [leafOf, start]
    rcases Nat.lt_trichotomy l (nonPow2Remainder n) with hl | hl | hl
    · rw [if_pos hl, if_pos hl.le, if_pos (Nat.succ_le_of_lt hl)]
      simp [Tree.leaves, Nat.mul_add, List.range'_succ]
    · subst hl
      rw [if_neg (lt_irrefl _), if_pos (le_refl _), if_neg (by omega)]
      have hone : nonPow2Remainder n + 1 + nonPow2Remainder n - 2 * nonPow2Remainder n = 1 := by
        omega
      rw [hone]
      simp [Tree.leaves, Nat.two_mul]
    · rw [if_neg (by omega), if_neg (by omega), if_neg (by omega)]
      have hone : l + 1 + nonPow2Remainder n - (l + nonPow2Remainder n) = 1 := by omega
      rw [hone]
      simp [Tree.leaves]
  have hend : start ((0 + 1) * 2 ^ Nat.log2 n) = n := by
    have hlt := remainder_lt hn
    have hsum := nearest_pow2_add_remainder hn
    rw [nearestPow2] at hlt hsum
    simp only [start]
    rw [if_neg (by omega)]
    omega
  have hzero : start (0 * 2 ^ Nat.log2 n) = 0 := by
    simp [start]
  rw [bracketing, leaves_block hmono hleaf, hend, hzero, Nat.sub_zero, List.range_eq_range']

section Values

variable (i : Inputs α) (number : Nat)

/-- The value of a logical rank before the round `j`. -/
def stageValue (j l : Nat) : α :=
  (block (leafOf i.nranks) j (l / 2 ^ j)).eval (i.op number) (i.input number)

/-- The result. -/
def result : α := (bracketing i.nranks).eval (i.op number) (i.input number)

/-- The value of the message the rank `q` sends in a stage. -/
def carried (q : Nat) : Stage → α
  | .preRemainder => i.input number q
  | .butterfly mask => stageValue i number (Nat.log2 mask) ((logicalRankOf i.nranks q).getD 0)
  | .postRemainder => result i number

variable {i number}

theorem stage_value_last {l : Nat} (hl : l < nearestPow2 i.nranks) :
    stageValue i number (Nat.log2 i.nranks) l = result i number := by
  have hzero : l / 2 ^ Nat.log2 i.nranks = 0 := Nat.div_eq_of_lt hl
  rw [stageValue, result, bracketing, hzero]

/-- A rank outside the remainder begins with its own input. -/
theorem stage_value_zero {r l : Nat}
    (hrem : ¬ r < 2 * nonPow2Remainder i.nranks) (hl : logicalRankOf i.nranks r = some l) :
    stageValue i number 0 l = i.input number r := by
  rw [logicalRankOf, if_neg hrem, Option.some.injEq] at hl
  have hge : ¬ l < nonPow2Remainder i.nranks := by omega
  have hsum : l + nonPow2Remainder i.nranks = r := by omega
  rw [stageValue, pow_zero, Nat.div_one, block, leafOf, if_neg hge, Tree.eval, hsum]

/-- An odd rank of the remainder begins with the input of its pair. -/
theorem stage_value_pair {r l : Nat} (hrem : r < 2 * nonPow2Remainder i.nranks)
    (hodd : r % 2 = 1) (hl : logicalRankOf i.nranks r = some l) :
    stageValue i number 0 l
      = i.op number (i.input number (r - 1)) (i.input number r) := by
  rw [logicalRankOf, if_pos hrem, if_neg (by omega), Option.some.injEq] at hl
  have hlt : l < nonPow2Remainder i.nranks := by omega
  have hleft : 2 * l = r - 1 := by omega
  have hright : 2 * l + 1 = r := by omega
  rw [stageValue, pow_zero, Nat.div_one, block, leafOf, if_pos hlt, Tree.eval, Tree.eval, Tree.eval,
    hright, hleft]

/-- A round of the butterfly. -/
theorem stage_value_succ (j l : Nat) :
    stageValue i number (j + 1) l
      = if l ^^^ 2 ^ j < l then
          i.op number (stageValue i number j (l ^^^ 2 ^ j)) (stageValue i number j l)
        else i.op number (stageValue i number j l) (stageValue i number j (l ^^^ 2 ^ j)) := by
  rw [stageValue, block_succ_div]
  split
  · rfl
  · rfl

theorem carried_butterfly {l j : Nat} (hl : l < nearestPow2 i.nranks) :
    carried i number (physicalRank i.nranks l) (.butterfly (2 ^ j)) = stageValue i number j l := by
  rw [carried, logical_physical_rank i.nranks_pos hl, Nat.log2_two_pow, Option.getD_some]

end Values

end Rapidsmpf.AllReduce
