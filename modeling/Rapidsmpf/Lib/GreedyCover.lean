import Mathlib

/-!
# Greedy covers

Items of given sizes, in descending order, are to close a gap. The greedy choice takes the largest
item while no item closes what is left of the gap, and ends with the smallest item that does.
`picks_covers`: it takes as few items as any set that closes the gap.
-/

namespace GreedyCover

universe u

variable {ι : Type u} (size : ι → Nat)

/-- The total size of a list of items. -/
def total (items : List ι) : Nat := (items.map size).sum

@[simp] theorem total_nil : total size [] = 0 := rfl

@[simp] theorem total_cons (i : ι) (items : List ι) :
    total size (i :: items) = size i + total size items := rfl

@[simp] theorem total_append (items items' : List ι) :
    total size (items ++ items') = total size items + total size items' := by
  simp [total]

/-- The smallest item that closes the gap, or the largest where no item does. -/
def pick (gap : Nat) (largest : ι) (rest : List ι) : ι :=
  ((largest :: rest).reverse.find? fun i => gap ≤ size i).getD largest

/-- The items that are taken, in this order. -/
def picks : Nat → List ι → List ι
  | _, [] => []
  | gap, i :: rest =>
      if gap ≤ size (pick size gap i rest) then [pick size gap i rest]
      else pick size gap i rest :: picks (gap - size (pick size gap i rest)) rest

/-- The items are in descending order. -/
def Descending (items : List ι) : Prop := items.Pairwise fun i j => size j ≤ size i

/-- What the chosen items are to the gap. `early`: it is open before the last of them. `last`: that
is a smallest of the items which are left and close it. -/
structure Covers (items : List ι) (gap : Nat) (chosen : List ι) : Prop where
  nodup : chosen.Nodup
  subset : chosen ⊆ items
  closes : gap ≤ total size chosen
  early : ∀ front back, chosen = front ++ back → back ≠ [] → total size front < gap
  fewest : ∀ s : Finset ι, (∀ i ∈ s, i ∈ items) → gap ≤ ∑ i ∈ s, size i →
    chosen.length ≤ s.card
  last : ∃ front i, chosen = front ++ [i] ∧
    ∀ j ∈ items, j ∉ front → gap ≤ total size front + size j → size i ≤ size j

section Pick

variable {size} {gap : Nat} {i j : ι} {rest : List ι}

theorem pick_mem : pick size gap i rest ∈ i :: rest := by
  unfold pick
  cases hfind : (i :: rest).reverse.find? fun j => gap ≤ size j with
  | none => simp
  | some j => exact List.mem_reverse.mp (List.mem_of_find?_eq_some hfind)

/-- Where the gap stays open every item is too small, and the largest is taken. -/
theorem pick_of_lt (h : size (pick size gap i rest) < gap) :
    pick size gap i rest = i ∧ ∀ j ∈ i :: rest, size j < gap := by
  unfold pick at h ⊢
  cases hfind : (i :: rest).reverse.find? fun j => gap ≤ size j with
  | none =>
      refine ⟨rfl, fun j hj => ?_⟩
      have hopen := List.find?_eq_none.mp hfind j (List.mem_reverse.mpr hj)
      simpa using hopen
  | some j =>
      have hclosed : gap ≤ size j := by simpa using List.find?_some hfind
      rw [hfind, Option.getD_some] at h
      omega

/-- An item that closes the gap is not smaller than the one that is taken. -/
theorem size_pick_le (hsorted : Descending size (i :: rest)) (hj : j ∈ i :: rest)
    (hclosed : gap ≤ size j) : size (pick size gap i rest) ≤ size j := by
  have hascending : (i :: rest).reverse.Pairwise fun a b => size a ≤ size b :=
    List.pairwise_reverse.mpr hsorted
  unfold pick
  cases hfind : (i :: rest).reverse.find? fun j => gap ≤ size j with
  | none =>
      have hopen := List.find?_eq_none.mp hfind j (List.mem_reverse.mpr hj)
      simp [hclosed] at hopen
  | some k =>
      obtain ⟨-, before, after, heq, hbefore⟩ := List.find?_eq_some_iff_append.mp hfind
      rw [heq] at hascending
      have hjmem : j ∈ before ++ k :: after := heq ▸ List.mem_reverse.mpr hj
      show size k ≤ size j
      rcases List.mem_append.mp hjmem with hjb | hjk
      · have := hbefore j hjb
        simp [hclosed] at this
      · rcases List.mem_cons.mp hjk with rfl | hja
        · exact le_rfl
        · exact List.rel_of_pairwise_cons (List.pairwise_append.mp hascending).2.1 hja

end Pick

variable {size} {gap : Nat} {items : List ι}

theorem picks_subset : picks size gap items ⊆ items := by
  induction items generalizing gap with
  | nil => exact List.nil_subset _
  | cons i rest ih =>
      unfold picks
      split
      · exact List.cons_subset.mpr ⟨pick_mem, List.nil_subset _⟩
      · exact List.cons_subset.mpr ⟨pick_mem, fun j hj => List.mem_cons_of_mem _ (ih hj)⟩

/-- No item is taken twice: the gap stays open only where the largest is taken. -/
theorem picks_nodup (hnodup : items.Nodup) : (picks size gap items).Nodup := by
  induction items generalizing gap with
  | nil => exact List.nodup_nil
  | cons i rest ih =>
      obtain ⟨hi, hrest⟩ := List.nodup_cons.mp hnodup
      unfold picks
      split
      · exact List.nodup_singleton _
      · next hopen =>
          obtain ⟨heq, -⟩ := pick_of_lt (Nat.lt_of_not_le hopen)
          rw [heq]
          exact List.nodup_cons.mpr ⟨fun h => hi (picks_subset h), ih hrest⟩

theorem le_total_picks (h : gap ≤ total size items) : gap ≤ total size (picks size gap items) := by
  induction items generalizing gap with
  | nil => exact h
  | cons i rest ih =>
      unfold picks
      split
      · next hclosed => simpa using hclosed
      · next hopen =>
          obtain ⟨heq, -⟩ := pick_of_lt (Nat.lt_of_not_le hopen)
          rw [heq]
          rw [total_cons] at h
          have hrest : gap - size i ≤ total size rest := by omega
          have htail := ih hrest
          rw [total_cons]
          omega

/-- The gap is open before the last item. -/
theorem total_front_lt (hpos : 0 < gap) {front back : List ι}
    (heq : picks size gap items = front ++ back) (hback : back ≠ []) :
    total size front < gap := by
  induction items generalizing gap front with
  | nil => exact absurd (List.append_eq_nil_iff.mp heq.symm).2 hback
  | cons i rest ih =>
      cases front with
      | nil => simpa using hpos
      | cons j front =>
          unfold picks at heq
          split at heq
          · obtain ⟨-, hnil⟩ := List.cons.inj heq
            exact absurd (List.append_eq_nil_iff.mp hnil.symm).2 hback
          · next hopen =>
              obtain ⟨rfl, htail⟩ := List.cons.inj heq
              have := ih (by omega) htail
              rw [total_cons]
              omega

/-- No set of items that closes the gap is smaller. In a step that leaves the gap open an item of
the set is exchanged for the largest. -/
theorem length_picks_le [DecidableEq ι] (hsorted : Descending size items) (hpos : 0 < gap)
    (s : Finset ι) (hs : ∀ i ∈ s, i ∈ items) (hsum : gap ≤ ∑ i ∈ s, size i) :
    (picks size gap items).length ≤ s.card := by
  induction items generalizing gap s with
  | nil => exact Nat.zero_le _
  | cons i rest ih =>
      have hne : s.Nonempty := by
        by_contra hempty
        rw [Finset.not_nonempty_iff_eq_empty.mp hempty, Finset.sum_empty] at hsum
        omega
      unfold picks
      split
      · exact hne.card_pos
      · next hopen =>
          obtain ⟨heq, -⟩ := pick_of_lt (Nat.lt_of_not_le hopen)
          rw [heq] at hopen ⊢
          -- the largest itself where it is in the set, so that the rest of the set is in `rest`
          obtain ⟨j, hj, hrest⟩ : ∃ j ∈ s, ∀ k ∈ s.erase j, k ∈ rest := by
            by_cases hi : i ∈ s
            · refine ⟨i, hi, fun k hk => ?_⟩
              obtain ⟨hki, hks⟩ := Finset.mem_erase.mp hk
              exact List.mem_of_ne_of_mem hki (hs k hks)
            · obtain ⟨j, hj⟩ := hne
              refine ⟨j, hj, fun k hk => ?_⟩
              have hks := Finset.mem_of_mem_erase hk
              exact List.mem_of_ne_of_mem (fun h : k = i => hi (h ▸ hks)) (hs k hks)
          have hle : size j ≤ size i := by
            rcases List.mem_cons.mp (hs j hj) with rfl | hjr
            · exact le_rfl
            · exact List.rel_of_pairwise_cons hsorted hjr
          have hsplit := Finset.add_sum_erase s size hj
          have hcard := Finset.card_erase_of_mem hj
          have hpositive := hne.card_pos
          have htail := ih (List.Pairwise.of_cons hsorted) (by omega) (s.erase j) hrest
            (by omega : gap - size i ≤ _)
          simp only [List.length_cons]
          omega

/-- The last item is a smallest of those that are left and close the gap. -/
theorem last_picks (hsorted : Descending size items) (hpos : 0 < gap)
    (h : gap ≤ total size items) :
    ∃ front i, picks size gap items = front ++ [i] ∧
      ∀ j ∈ items, j ∉ front → gap ≤ total size front + size j → size i ≤ size j := by
  induction items generalizing gap with
  | nil => exact absurd h (Nat.not_le.mpr hpos)
  | cons i rest ih =>
      unfold picks
      split
      · refine ⟨[], _, rfl, fun j hj _ hclosed => size_pick_le hsorted hj ?_⟩
        simpa using hclosed
      · next hopen =>
          obtain ⟨heq, hsmall⟩ := pick_of_lt (Nat.lt_of_not_le hopen)
          rw [heq] at hopen ⊢
          rw [total_cons] at h
          obtain ⟨front, k, hpicks, hleast⟩ :=
            ih (List.Pairwise.of_cons hsorted) (by omega) (by omega : gap - size i ≤ _)
          refine ⟨i :: front, k, by rw [hpicks, List.cons_append], fun j hj hnot hclosed => ?_⟩
          have hji : j ≠ i := fun h => hnot (h ▸ List.mem_cons_self)
          rw [total_cons] at hclosed
          exact hleast j (List.mem_of_ne_of_mem hji hj)
            (fun hmem => hnot (List.mem_cons_of_mem _ hmem)) (by omega)

/-- The greedy choice covers the gap. -/
theorem picks_covers [DecidableEq ι] (hsorted : Descending size items) (hnodup : items.Nodup)
    (hpos : 0 < gap) (h : gap ≤ total size items) :
    Covers size items gap (picks size gap items) where
  nodup := picks_nodup hnodup
  subset := picks_subset
  closes := le_total_picks h
  early _ _ heq hback := total_front_lt hpos heq hback
  fewest s hs hsum := length_picks_le hsorted hpos s hs hsum
  last := last_picks hsorted hpos h

end GreedyCover
