import Mathlib

/-!
# Facts about lists and sums

General facts used by the protocol proofs: association lists, sums over the parties of which one
changes, and the replacement or removal of one element of a list.
-/

namespace ListFacts

universe u v

/-- Removing one key leaves the entries of the others. -/
theorem lookup_filter_ne {α : Type u} {fs : List (Nat × α)} {k id : Nat} (hne : k ≠ id) :
    (fs.filter (fun g => decide (g.1 ≠ id))).lookup k = fs.lookup k := by
  induction fs with
  | nil => rfl
  | cons g fs ih =>
      obtain ⟨key, a⟩ := g
      by_cases hg : key = id
      · subst hg
        have hk : (k == key) = false := by simpa using hne
        rw [List.filter_cons_of_neg (by simp), ih, List.lookup_cons, hk]
      · rw [List.filter_cons_of_pos (by simpa using hg), List.lookup_cons, List.lookup_cons, ih]

/-- A sum one of whose terms grows. -/
theorem sum_eq_add {ι : Type u} {M : Type v} [DecidableEq ι] [AddCommMonoid M] {s : Finset ι}
    {i : ι} {f g : ι → M} {x : M} (hi : i ∈ s) (hself : g i = f i + x)
    (hothers : ∀ j ∈ s, j ≠ i → g j = f j) : ∑ j ∈ s, g j = ∑ j ∈ s, f j + x := by
  rw [← Finset.add_sum_erase s g hi, ← Finset.add_sum_erase s f hi, hself,
    Finset.sum_congr rfl fun j hj =>
      hothers j (Finset.mem_of_mem_erase hj) (Finset.ne_of_mem_erase hj)]
  exact add_right_comm _ _ _

/-- The counterpart of an element in a related list. -/
theorem forall₂_getElem? {α : Type u} {β : Type v} {R : α → β → Prop} {l : List α} {l' : List β}
    (h : List.Forall₂ R l l') {k : Nat} {a : α} (ha : l[k]? = some a) :
    ∃ b, l'[k]? = some b ∧ R a b := by
  induction h generalizing k with
  | nil => cases ha
  | @cons x y xs ys hxy _ ih =>
      cases k with
      | zero =>
          obtain rfl : x = a := by simpa using ha
          exact ⟨y, rfl, hxy⟩
      | succ k => exact ih ha

/-- What lists have together is what the elements related to them have. -/
theorem exists_mem_flatten {α : Type u} {β : Type v} {R : List α → β → Prop} {p : α → Prop}
    {q : β → Prop} {ls : List (List α)} {rs : List β}
    (hR : ∀ l r, R l r → (q r ↔ ∃ a ∈ l, p a)) (h : List.Forall₂ R ls rs) :
    (∃ r ∈ rs, q r) ↔ ∃ a ∈ ls.flatten, p a := by
  induction h with
  | nil => simp
  | cons hone _ ih =>
      simp only [List.flatten_cons, List.mem_cons, List.mem_append, or_and_right, exists_or,
        exists_eq_left, hR _ _ hone, ih]

/-- The sum over lists is the sum over the elements related to them. -/
theorem sum_map_flatten {α : Type u} {β : Type v} {M : Type*} [AddMonoid M]
    {R : List α → β → Prop} {f : α → M} {g : β → M} {ls : List (List α)} {rs : List β}
    (hR : ∀ l r, R l r → g r = (l.map f).sum) (h : List.Forall₂ R ls rs) :
    (rs.map g).sum = (ls.flatten.map f).sum := by
  induction h with
  | nil => rfl
  | cons hone _ ih =>
      rw [List.flatten_cons, List.map_append, List.sum_append, List.map_cons, List.sum_cons,
        hR _ _ hone, ih]

/-- Removing the elements of one position from related lists. -/
theorem forall₂_eraseIdx {α : Type u} {β : Type v} {R : α → β → Prop} {l : List α} {l' : List β}
    (h : List.Forall₂ R l l') (k : Nat) : List.Forall₂ R (l.eraseIdx k) (l'.eraseIdx k) := by
  induction h generalizing k with
  | nil => exact .nil
  | cons hxy hrest ih =>
      cases k with
      | zero => exact hrest
      | succ k => exact .cons hxy (ih k)

/-- Removing one element lowers its count. -/
theorem count_eraseIdx {α : Type u} [DecidableEq α] {l : List α} {k : Nat} {a : α}
    (ha : l[k]? = some a) (b : α) :
    l.count b = (l.eraseIdx k).count b + if a = b then 1 else 0 := by
  obtain ⟨hk, rfl⟩ := List.getElem?_eq_some_iff.mp ha
  rw [← (List.getElem_cons_eraseIdx_perm hk).count_eq b, List.count_cons]
  simp only [beq_iff_eq]

/-- Storing what is there already changes nothing. -/
theorem set_of_getElem? {α : Type u} {l : List α} {k : Nat} {a : α} (ha : l[k]? = some a) :
    l.set k a = l := by
  obtain ⟨hk, rfl⟩ := List.getElem?_eq_some_iff.mp ha
  exact List.set_getElem_self hk

/-- A list has the elements of its beginnings, at their places. -/
theorem getElem?_of_prefix {α : Type u} {l l' : List α} {k : Nat} {a : α} (h : l <+: l')
    (ha : l[k]? = some a) : l'[k]? = some a := by
  obtain ⟨hk, rfl⟩ := List.getElem?_eq_some_iff.mp ha
  exact List.prefix_iff_getElem?.mp h k hk

/-- A beginning with the element that follows it is a beginning. -/
theorem concat_prefix {α : Type u} {l l' : List α} {a : α} (h : l <+: l')
    (ha : l'[l.length]? = some a) : l ++ [a] <+: l' := by
  obtain ⟨rest, rfl⟩ := h
  rw [List.getElem?_append_right le_rfl, Nat.sub_self] at ha
  cases rest with
  | nil => cases ha
  | cons b rest =>
      cases ha
      exact ⟨rest, List.append_assoc ..⟩

/-- A list of a given length comes apart at any place. -/
theorem exists_append_of_length {α : Type u} {l : List α} {m n : Nat} (h : l.length = m + n) :
    ∃ a b, l = a ++ b ∧ a.length = m ∧ b.length = n := by
  refine ⟨l.take m, l.drop m, (List.take_append_drop m l).symm, ?_, ?_⟩
  · rw [List.length_take, h, Nat.min_eq_left (Nat.le_add_right m n)]
  · rw [List.length_drop, h, Nat.add_sub_cancel_left]

/-- The elements of a list of which one is replaced. -/
theorem getElem?_set_cases {α : Type u} {l : List α} {i j : Nat} {a b x : α}
    (ha : l[i]? = some a) (h : (l.set i b)[j]? = some x) :
    j = i ∧ x = b ∨ j ≠ i ∧ l[j]? = some x := by
  have hlt : i < l.length := (List.getElem?_eq_some_iff.mp ha).1
  by_cases hji : j = i
  · subst hji
    rw [List.getElem?_set_self hlt] at h
    exact .inl ⟨rfl, (Option.some.inj h).symm⟩
  · rw [List.getElem?_set_ne (Ne.symm hji)] at h
    exact .inr ⟨hji, h⟩

/-- Replacing one element exchanges what it contributes to a selection. -/
theorem filterMap_set_perm {α : Type u} {β : Type v} {l : List α} {k : Nat} {a : α}
    (ha : l[k]? = some a) (f : α → Option β) (b : α) :
    ((f a).toList ++ (l.set k b).filterMap f).Perm ((f b).toList ++ l.filterMap f) := by
  induction l generalizing k with
  | nil => cases ha
  | cons x l ih =>
      have hcons : ∀ (y : α) (ys : List α),
          (y :: ys).filterMap f = (f y).toList ++ ys.filterMap f := by
        intro y ys
        cases hy : f y <;> simp [hy]
      have hswap : ∀ p q r : List β, (p ++ (q ++ r)).Perm (q ++ (p ++ r)) := by
        intro p q r
        rw [← List.append_assoc, ← List.append_assoc]
        exact List.perm_append_comm.append_right r
      cases k with
      | zero =>
          obtain rfl : x = a := by simpa using ha
          rw [List.set_cons_zero, hcons, hcons]
          exact hswap _ _ _
      | succ k =>
          rw [List.set_cons_succ, hcons, hcons]
          have hrest := ih (k := k) (by simpa using ha)
          exact (hswap _ _ _).trans ((hrest.append_left _).trans (hswap _ _ _))

/-- Replacing one element exchanges its term of a sum. -/
theorem sum_map_set {α : Type u} {M : Type v} [AddCommMonoid M] {l : List α} {k : Nat} {a : α}
    (ha : l[k]? = some a) (f : α → M) (b : α) :
    ((l.set k b).map f).sum + f a = (l.map f).sum + f b := by
  induction l generalizing k with
  | nil => cases ha
  | cons x l ih =>
      cases k with
      | zero =>
          obtain rfl : x = a := by simpa using ha
          simp only [List.set_cons_zero, List.map_cons, List.sum_cons]
          rw [add_comm (f b), add_comm (f x), add_assoc, add_assoc, add_comm (f b)]
      | succ k =>
          simp only [List.set_cons_succ, List.map_cons, List.sum_cons]
          rw [add_assoc, ih (by simpa using ha), add_assoc]

/-- Removing one element takes its term from a sum. -/
theorem sum_map_eraseIdx {α : Type u} {M : Type v} [AddCommMonoid M] {l : List α} {k : Nat}
    {a : α} (ha : l[k]? = some a) (f : α → M) :
    ((l.eraseIdx k).map f).sum + f a = (l.map f).sum := by
  obtain ⟨hk, rfl⟩ := List.getElem?_eq_some_iff.mp ha
  have hperm := (List.getElem_cons_eraseIdx_perm hk).map f
  rw [← hperm.sum_eq, List.map_cons, List.sum_cons, add_comm]

/-- One term of a sum of natural numbers is at most the sum. -/
theorem le_sum_map {α : Type u} {l : List α} {k : Nat} {a : α} (ha : l[k]? = some a)
    (f : α → Nat) : f a ≤ (l.map f).sum := by
  have herase := sum_map_eraseIdx ha f
  omega

end ListFacts
