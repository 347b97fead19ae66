import Mathlib

/-!
# Searching an ordered range

A strict order keeps a list sorted under insertion (`insertAll_sorted`), whatever the order in
which the elements come. On a range whose elements above a bound come last, the halving loop of
`upper_bound` finds where they begin (`take_upperBound`), and the scan of `min_element` keeps the
first of the least elements (`min_element_eq_some_iff`).
-/

namespace OrderedSearch

universe u v

variable {α : Type u}

section Insertion

variable {before : α → α → Prop} [DecidableRel before]

/-- The elements of a list, inserted one after another. -/
def insertAll (before : α → α → Prop) [DecidableRel before] (l : List α) : List α :=
  l.foldl (fun set a => set.orderedInsert before a) []

/-- One insertion, where the new element compares with each element of the set. -/
theorem sorted_insert (htrans : ∀ a b c, before a b → before b c → before a c) {set : List α}
    {a : α} (hset : set.Pairwise before) (ha : ∀ b ∈ set, before a b ∨ before b a) :
    (set.orderedInsert before a).Pairwise before := by
  induction set with
  | nil => exact List.pairwise_singleton before a
  | cons b set ih =>
      obtain ⟨hb, hset⟩ := List.pairwise_cons.mp hset
      rw [List.orderedInsert_cons]
      split
      · next hab =>
          refine List.pairwise_cons.mpr ⟨fun c hc => ?_, List.pairwise_cons.mpr ⟨hb, hset⟩⟩
          rcases List.mem_cons.mp hc with rfl | hc
          · exact hab
          · exact htrans a b c hab (hb c hc)
      · next hab =>
          have hba : before b a := (ha b List.mem_cons_self).resolve_left hab
          have hrest := ih hset fun c hc => ha c (List.mem_cons_of_mem b hc)
          refine List.pairwise_cons.mpr ⟨fun c hc => ?_, hrest⟩
          rcases (List.mem_orderedInsert before).mp hc with rfl | hc
          · exact hba
          · exact hb c hc

theorem foldl_insert_perm (l set : List α) :
    (l.foldl (fun set a => set.orderedInsert before a) set).Perm (l ++ set) := by
  induction l generalizing set with
  | nil => exact .refl _
  | cons a l ih =>
      have hone := (List.perm_orderedInsert before a set).append_left l
      exact ((ih (set.orderedInsert before a)).trans hone).trans List.perm_middle

/-- The set has the elements of the list. -/
theorem insertAll_perm (l : List α) : (insertAll before l).Perm l := by
  have h : (insertAll before l).Perm (l ++ []) := foldl_insert_perm l []
  rwa [List.append_nil] at h

theorem mem_insertAll {l : List α} {a : α} : a ∈ insertAll before l ↔ a ∈ l :=
  (insertAll_perm l).mem_iff

/-- Elements any two of which compare end up sorted. -/
theorem insertAll_sorted (htrans : ∀ a b c, before a b → before b c → before a c) {l : List α}
    (hl : l.Pairwise fun a b => before a b ∨ before b a) :
    (insertAll before l).Pairwise before := by
  suffices h : ∀ (l set : List α), set.Pairwise before →
      (l.Pairwise fun a b => before a b ∨ before b a) →
      (∀ a ∈ l, ∀ b ∈ set, before a b ∨ before b a) →
      (l.foldl (fun set a => set.orderedInsert before a) set).Pairwise before from
    h l [] .nil hl (fun _ _ _ hb => nomatch hb)
  intro l
  induction l with
  | nil =>
      intro set hset _ _
      exact hset
  | cons a l ih =>
      intro set hset hl hcross
      obtain ⟨ha, hl⟩ := List.pairwise_cons.mp hl
      refine ih _ (sorted_insert htrans hset (hcross a List.mem_cons_self)) hl ?_
      intro b hb c hc
      rcases (List.mem_orderedInsert before).mp hc with rfl | hc
      · exact (ha b hb).symm
      · exact hcross b (List.mem_cons_of_mem a hb) c hc

end Insertion

section UpperBound

/-- The loop of `upper_bound` over the `len` elements from the position `first`. -/
def upperBoundFrom (above : α → Bool) (l : List α) (first len : Nat) : Nat :=
  if len = 0 then first
  else
    match l[first + len / 2]? with
    | some middle =>
        if above middle then upperBoundFrom above l first (len / 2)
        else upperBoundFrom above l (first + len / 2 + 1) (len - len / 2 - 1)
    -- not reached inside the range
    | none => first
termination_by len

/-- `std::ranges::upper_bound`: the position of the first element above the bound. -/
def upperBound (above : α → Bool) (l : List α) : Nat :=
  upperBoundFrom above l 0 l.length

variable {above : α → Bool} {l : List α}

/-- The position `r` parts the elements above the bound from the others. -/
structure Parts (above : α → Bool) (l : List α) (r : Nat) : Prop where
  bound : r ≤ l.length
  below : ∀ i (hi : i < l.length), i < r → above l[i] = false
  above : ∀ i (hi : i < l.length), r ≤ i → above l[i] = true

/-- The loop keeps that what lies before its range is below the bound and what lies after it is
above. -/
theorem upperBoundFrom_parts (hl : l.Pairwise fun a b => above a = true → above b = true)
    {first len : Nat} (hbound : first + len ≤ l.length)
    (hbelow : ∀ i (hi : i < l.length), i < first → above l[i] = false)
    (habove : ∀ i (hi : i < l.length), first + len ≤ i → above l[i] = true) :
    Parts above l (upperBoundFrom above l first len) := by
  fun_induction upperBoundFrom above l first len with
  | case1 first => exact ⟨hbound, hbelow, habove⟩
  | case2 first len hlen middle hmiddle hcond ih =>
      obtain ⟨hlt, rfl⟩ := List.getElem?_eq_some_iff.mp hmiddle
      refine ih (by omega) hbelow fun i hi hle => ?_
      rcases Nat.eq_or_lt_of_le hle with heq | hlt'
      · subst heq
        exact hcond
      · exact List.pairwise_iff_getElem.mp hl _ i hlt hi hlt' hcond
  | case3 first len hlen middle hmiddle hcond ih =>
      obtain ⟨hlt, rfl⟩ := List.getElem?_eq_some_iff.mp hmiddle
      refine ih (by omega) (fun i hi hless => ?_) fun i hi hle => habove i hi (by omega)
      by_contra hi'
      have hi' : above l[i] = true := by simpa using hi'
      rcases Nat.eq_or_lt_of_le (Nat.le_of_lt_succ hless) with heq | hlt'
      · subst heq
        exact hcond hi'
      · exact hcond (List.pairwise_iff_getElem.mp hl i _ hi hlt hlt' hi')
  | case4 first len hlen hnone =>
      have := List.getElem?_eq_none_iff.mp hnone
      omega

theorem upperBound_parts (hl : l.Pairwise fun a b => above a = true → above b = true) :
    Parts above l (upperBound above l) :=
  upperBoundFrom_parts hl (by omega) (fun _ _ h => absurd h (Nat.not_lt_zero _))
    (fun i hi h => absurd hi (by omega))

/-- The elements before the position found are the leading ones that are not above the bound. -/
theorem take_eq_takeWhile {r : Nat} (h : Parts above l r) :
    l.take r = l.takeWhile fun a => !above a := by
  obtain ⟨hbound, hbelow, habove⟩ := h
  induction l generalizing r with
  | nil => simp
  | cons a l ih =>
      cases r with
      | zero =>
          have ha := habove 0 (by simp) (Nat.le_refl 0)
          rw [List.getElem_cons_zero] at ha
          rw [List.take_zero, List.takeWhile_cons_of_neg (by simp [ha])]
      | succ r =>
          have ha := hbelow 0 (by simp) (Nat.succ_pos r)
          rw [List.getElem_cons_zero] at ha
          rw [List.take_succ_cons, List.takeWhile_cons_of_pos (by simp [ha])]
          congr 1
          refine ih (by simpa using hbound) (fun i hi hless => ?_) fun i hi hle => ?_
          · have h := hbelow (i + 1) (by simpa using hi) (by omega)
            rwa [List.getElem_cons_succ] at h
          · have h := habove (i + 1) (by simpa using hi) (by omega)
            rwa [List.getElem_cons_succ] at h

theorem take_upperBound (hl : l.Pairwise fun a b => above a = true → above b = true) :
    l.take (upperBound above l) = l.takeWhile fun a => !above a :=
  take_eq_takeWhile (upperBound_parts hl)

/-- On such a list the leading elements not above the bound are all of them. -/
theorem takeWhile_eq_filter (hl : l.Pairwise fun a b => above a = true → above b = true) :
    (l.takeWhile fun a => !above a) = l.filter fun a => !above a := by
  induction l with
  | nil => rfl
  | cons a l ih =>
      obtain ⟨ha, hl⟩ := List.pairwise_cons.mp hl
      cases hcond : above a with
      | false =>
          rw [List.takeWhile_cons_of_pos (by simp [hcond]), ih hl,
            List.filter_cons_of_pos (by simp [hcond])]
      | true =>
          rw [List.takeWhile_cons_of_neg (by simp [hcond]),
            List.filter_cons_of_neg (by simp [hcond])]
          exact (List.filter_eq_nil_iff.mpr fun b hb => by simp [ha b hb hcond]).symm

end UpperBound

section MinElement

variable {κ : Type v} [LinearOrder κ]

/-- One comparison of `min_element`: a later element replaces the best one only when it is less. -/
def better (key : α → κ) (best a : α) : α :=
  if key a < key best then a else best

/-- `std::ranges::min_element`, with the end of the range as `none`. -/
def minElement (key : α → κ) : List α → Option α
  | [] => none
  | a :: l => some (l.foldl (better key) a)

variable {key : α → κ} {l : List α} {a : α}

/-- An element of a list is the first of its least elements. -/
def FirstLeast (key : α → κ) (l : List α) (a : α) : Prop :=
  ∃ front rest, l = front ++ a :: rest ∧ (∀ b ∈ front, key a < key b) ∧ ∀ b ∈ rest, key a ≤ key b

/-- The scan goes from the first least element of what it has seen to that of the whole. -/
theorem foldl_better_first {seen : List α} {best : α} (h : FirstLeast key seen best)
    (l : List α) : FirstLeast key (seen ++ l) (l.foldl (better key) best) := by
  induction l generalizing seen best with
  | nil =>
      rw [List.append_nil]
      exact h
  | cons a l ih =>
      have hnext : FirstLeast key (seen ++ [a]) (better key best a) := by
        obtain ⟨front, rest, rfl, hfront, hrest⟩ := h
        unfold better
        split
        · next hless =>
            refine ⟨front ++ best :: rest, [], rfl, fun b hb => ?_, by simp⟩
            rcases List.mem_append.mp hb with hb | hb
            · exact hless.trans (hfront b hb)
            · rcases List.mem_cons.mp hb with rfl | hb
              · exact hless
              · exact hless.trans_le (hrest b hb)
        · next hless =>
            refine ⟨front, rest ++ [a], by simp, hfront, fun b hb => ?_⟩
            rcases List.mem_append.mp hb with hb | hb
            · exact hrest b hb
            · rw [List.mem_singleton.mp hb]
              exact not_lt.mp hless
      have hlast := ih hnext
      rwa [List.append_assoc] at hlast

theorem min_element_first (h : minElement key l = some a) : FirstLeast key l a := by
  cases l with
  | nil => cases h
  | cons first l =>
      cases h
      exact foldl_better_first ⟨[], [], rfl, by simp, by simp⟩ l

theorem min_element_eq_none_iff : minElement key l = none ↔ l = [] := by
  cases l with
  | nil => exact iff_of_true rfl rfl
  | cons first l => exact iff_of_false nofun nofun

/-- In a list sorted by a strict order, the first of the least elements is the one that every
other element follows, by the key or at equal keys in the order of the list. -/
theorem min_element_eq_some_iff {before : α → α → Prop} (hirrefl : ∀ a, ¬ before a a)
    (htrans : ∀ a b c, before a b → before b c → before a c) (hl : l.Pairwise before) :
    minElement key l = some a ↔
      a ∈ l ∧ ∀ b ∈ l, b ≠ a → key a < key b ∨ key a = key b ∧ before a b := by
  have hmin : ∀ a, minElement key l = some a →
      a ∈ l ∧ ∀ b ∈ l, b ≠ a → key a < key b ∨ key a = key b ∧ before a b := by
    intro a h
    obtain ⟨front, rest, rfl, hfront, hrest⟩ := min_element_first h
    refine ⟨by simp, fun b hb hne => ?_⟩
    rcases List.mem_append.mp hb with hb | hb
    · exact .inl (hfront b hb)
    · have hb := (List.mem_cons.mp hb).resolve_left hne
      have hbefore := (List.pairwise_cons.mp (List.pairwise_append.mp hl).2.1).1 b hb
      rcases lt_or_eq_of_le (hrest b hb) with hless | heq
      · exact .inl hless
      · exact .inr ⟨heq, hbefore⟩
  refine ⟨hmin a, fun ⟨ha, hleast⟩ => ?_⟩
  cases hfound : minElement key l with
  | none =>
      rw [min_element_eq_none_iff.mp hfound] at ha
      cases ha
  | some b =>
      obtain ⟨hb, hleast'⟩ := hmin b hfound
      by_contra hne
      have hne : b ≠ a := fun heq => hne (congrArg some heq)
      -- each of the two would come before the other
      rcases hleast b hb hne with hab | ⟨hab, hbefore⟩
      · rcases hleast' a ha hne.symm with hba | ⟨hba, -⟩
        · exact lt_asymm hab hba
        · exact absurd hba hab.ne'
      · rcases hleast' a ha hne.symm with hba | ⟨-, hbefore'⟩
        · exact absurd hab hba.ne'
        · exact hirrefl a (htrans a b a hbefore hbefore')

end MinElement

end OrderedSearch
