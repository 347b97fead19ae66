import Mathlib

/-!
# Recursive doubling

Parties with the numbers `0, 1, …, 2 ^ k - 1` combine their values in `k` rounds; in the round `j`
party `i` exchanges values with party `i ^^^ 2 ^ j`, and both keep the combination with the value
of the smaller party on the left. After `j` rounds party `i` has the value of the bracketing
`block leaf j (i / 2 ^ j)`, a complete binary tree over the leaves of the parties that agree with
`i` above bit `j`. Nothing is assumed of the operation.
-/

namespace Doubling

universe u

variable {α : Type u}

/-- A bracketing of numbered operands. -/
inductive Tree where
  | leaf (i : Nat)
  | node (left right : Tree)
deriving DecidableEq

namespace Tree

/-- The value of a bracketing. -/
def eval (op : α → α → α) (x : Nat → α) : Tree → α
  | leaf i => x i
  | node left right => op (left.eval op x) (right.eval op x)

/-- The operands in order. -/
def leaves : Tree → List Nat
  | leaf i => [i]
  | node left right => left.leaves ++ right.leaves

theorem leaves_ne_nil (t : Tree) : t.leaves ≠ [] := by
  cases t with
  | leaf i => simp [leaves]
  | node left right => simp [leaves, left.leaves_ne_nil]

/-- Under an associative operation the brackets do not matter. -/
theorem eval_eq_foldl {op : α → α → α} (hop : ∀ a b c, op (op a b) c = op a (op b c))
    (x : Nat → α) (t : Tree) {i : Nat} {is : List Nat} (h : t.leaves = i :: is) :
    t.eval op x = (is.map x).foldl op (x i) := by
  have : Std.Associative op := ⟨hop⟩
  induction t generalizing i is with
  | leaf j =>
      obtain ⟨rfl, rfl⟩ : j = i ∧ [] = is := by simpa [leaves] using h
      rfl
  | node left right ihl ihr =>
      obtain ⟨l, ls, hl⟩ := List.exists_cons_of_ne_nil left.leaves_ne_nil
      obtain ⟨r, rs, hr⟩ := List.exists_cons_of_ne_nil right.leaves_ne_nil
      obtain ⟨rfl, rfl⟩ : l = i ∧ ls ++ r :: rs = is := by simpa [leaves, hl, hr] using h
      calc op (left.eval op x) (right.eval op x)
          = op ((ls.map x).foldl op (x l)) ((rs.map x).foldl op (x r)) := by rw [ihl hl, ihr hr]
        _ = (rs.map x).foldl op (op ((ls.map x).foldl op (x l)) (x r)) := List.foldl_assoc.symm
        _ = ((ls ++ r :: rs).map x).foldl op (x l) := by simp

end Tree

/-- The bracketing of the block `b` of `2 ^ j` parties. -/
def block (leaf : Nat → Tree) : Nat → Nat → Tree
  | 0, b => leaf b
  | j + 1, b => .node (block leaf j (2 * b)) (block leaf j (2 * b + 1))

/-- The operands of a block, when those of party `i` are the numbers from `start i` up to
`start (i + 1)`. -/
theorem leaves_block {leaf : Nat → Tree} {start : Nat → Nat} (hmono : Monotone start)
    (hleaf : ∀ i, (leaf i).leaves = List.range' (start i) (start (i + 1) - start i)) (j b : Nat) :
    (block leaf j b).leaves
      = List.range' (start (b * 2 ^ j)) (start ((b + 1) * 2 ^ j) - start (b * 2 ^ j)) := by
  induction j generalizing b with
  | zero => simpa [block] using hleaf b
  | succ j ih =>
      have hl : b * 2 ^ (j + 1) = 2 * b * 2 ^ j := by ring
      have hr : (b + 1) * 2 ^ (j + 1) = (2 * b + 1 + 1) * 2 ^ j := by ring
      have hle₁ : start (2 * b * 2 ^ j) ≤ start ((2 * b + 1) * 2 ^ j) :=
        hmono (Nat.mul_le_mul_right _ (by omega))
      have hle₂ : start ((2 * b + 1) * 2 ^ j) ≤ start ((2 * b + 1 + 1) * 2 ^ j) :=
        hmono (Nat.mul_le_mul_right _ (by omega))
      have hmid : start ((2 * b + 1) * 2 ^ j)
          = start (2 * b * 2 ^ j) + (start ((2 * b + 1) * 2 ^ j) - start (2 * b * 2 ^ j)) := by
        omega
      have hlen : start ((2 * b + 1 + 1) * 2 ^ j) - start (2 * b * 2 ^ j)
          = (start ((2 * b + 1) * 2 ^ j) - start (2 * b * 2 ^ j))
            + (start ((2 * b + 1 + 1) * 2 ^ j) - start ((2 * b + 1) * 2 ^ j)) := by
        omega
      rw [block, Tree.leaves, ih, ih, hl, hr, hlen, ← List.range'_append_1, ← hmid]

/-! ## The partner of a round -/

/-- The partner has the other block of the round. -/
theorem xor_two_pow_div (i j : Nat) : (i ^^^ 2 ^ j) / 2 ^ j = (i / 2 ^ j) ^^^ 1 := by
  rw [Nat.xor_div_two_pow, Nat.div_self (Nat.two_pow_pos j)]

/-- The partner agrees below the bit of the round. -/
theorem xor_two_pow_mod (i j : Nat) : (i ^^^ 2 ^ j) % 2 ^ j = i % 2 ^ j := by
  rw [Nat.xor_mod_two_pow, Nat.mod_self, Nat.xor_zero]

theorem xor_one (c : Nat) : c ^^^ 1 = if c % 2 = 0 then c + 1 else c - 1 := by
  split
  case isTrue hc => exact Nat.xor_one_of_even (Nat.even_iff.mpr hc)
  case isFalse hc => exact Nat.xor_one_of_odd (Nat.odd_iff.mpr (Nat.mod_two_ne_zero.mp hc))

/-- The smaller of two partners has the even block. -/
theorem xor_two_pow_lt_iff (i j : Nat) : i ^^^ 2 ^ j < i ↔ i / 2 ^ j % 2 = 1 := by
  have hi := Nat.div_add_mod i (2 ^ j)
  have hp := Nat.div_add_mod (i ^^^ 2 ^ j) (2 ^ j)
  rw [xor_two_pow_div, xor_two_pow_mod, xor_one] at hp
  have hpos : 0 < 2 ^ j := Nat.two_pow_pos j
  rcases Nat.mod_two_eq_zero_or_one (i / 2 ^ j) with hc | hc
  · rw [if_pos hc, Nat.mul_add, Nat.mul_one] at hp
    exact iff_of_false (by omega) (by omega)
  · rw [if_neg (by omega)] at hp
    have hne : i / 2 ^ j ≠ 0 := by
      intro hzero
      simp [hzero] at hc
    obtain ⟨d, hd⟩ := Nat.exists_eq_succ_of_ne_zero hne
    rw [hd, Nat.succ_sub_one] at hp
    rw [hd, Nat.mul_succ] at hi
    exact iff_of_true (by omega) hc

/-- What the two partners combine is the bracketing of the next round. -/
theorem block_succ_div (leaf : Nat → Tree) (i j : Nat) :
    block leaf (j + 1) (i / 2 ^ (j + 1))
      = if i ^^^ 2 ^ j < i then
          .node (block leaf j ((i ^^^ 2 ^ j) / 2 ^ j)) (block leaf j (i / 2 ^ j))
        else .node (block leaf j (i / 2 ^ j)) (block leaf j ((i ^^^ 2 ^ j) / 2 ^ j)) := by
  have hhalf : i / 2 ^ (j + 1) = i / 2 ^ j / 2 := by rw [pow_succ, Nat.div_div_eq_div_mul]
  rw [block, hhalf, xor_two_pow_div, xor_one]
  rcases Nat.mod_two_eq_zero_or_one (i / 2 ^ j) with hc | hc
  · rw [if_neg (by rw [xor_two_pow_lt_iff]; omega), if_pos hc]
    congr 2 <;> omega
  · rw [if_pos ((xor_two_pow_lt_iff i j).mpr hc), if_neg (by omega)]
    congr 2 <;> omega

end Doubling
