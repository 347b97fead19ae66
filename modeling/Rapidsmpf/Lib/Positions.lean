import Mathlib

/-!
# Positions in a list

Elements are taken out of a list of slots at given positions, in any order, and the slots that are
left empty are erased. `select` are the elements at the positions and `others` those at all other
positions, in their order; `move_out_some` and `erase_cleared` say that this is what the moves and
the erasure leave.
-/

namespace Positions

universe u v

variable {α : Type u} {β : Type v}

/-- The elements at the positions, in the order of the positions. -/
def select (l : List α) (is : List Nat) : List α := is.filterMap fun i => l[i]?

/-- The elements at all other positions, in their order in the list. -/
def others (l : List α) (is : List Nat) : List α :=
  select l ((List.range l.length).filter (· ∉ is))

/-- Empty the slots at the positions. -/
def clear (is : List Nat) (slots : List (Option α)) : List (Option α) :=
  is.foldl (fun slots i => slots.set i none) slots

/-- Move the contents of the slots at the positions out, one after the other. -/
def moveOut : List Nat → List (Option α) → List (Option α) × List (Option α)
  | [], slots => ([], slots)
  | i :: is, slots =>
      let (moved, rest) := moveOut is (slots.set i none)
      (slots[i]?.join :: moved, rest)

/-- `std::erase(slots, nullptr)`. -/
def eraseNull (slots : List (Option α)) : List (Option α) := slots.filter Option.isSome

/-! ## Selecting -/

section Select

variable {l : List α} {is js : List Nat}

theorem select_cons {i : Nat} (h : i < l.length) : select l (i :: is) = l[i] :: select l is := by
  rw [select, List.filterMap_cons_some (List.getElem?_eq_getElem h)]
  rfl

theorem select_append : select l (is ++ js) = select l is ++ select l js := List.filterMap_append

theorem select_map (f : α → β) : select (l.map f) is = (select l is).map f := by
  rw [select, select, List.map_filterMap]
  simp

theorem others_map (f : α → β) : others (l.map f) is = (others l is).map f := by
  rw [others, others, List.length_map, select_map]

/-- Positions of the list have an element each. -/
theorem map_some_select (h : ∀ i ∈ is, i < l.length) :
    (select l is).map some = is.map fun i => l[i]? := by
  induction is with
  | nil => rfl
  | cons i is ih =>
      obtain ⟨hi, hrest⟩ := List.forall_mem_cons.mp h
      rw [select_cons hi, List.map_cons, ih hrest, List.map_cons, List.getElem?_eq_getElem hi]

theorem select_range : select l (List.range l.length) = l := by
  refine List.map_injective_iff.mpr (Option.some_injective α) ?_
  rw [map_some_select fun i hi => List.mem_range.mp hi]
  refine List.ext_getElem? fun i => ?_
  by_cases hi : i < l.length
  · simp [hi]
  · simp [hi]

theorem others_nil : others l [] = l := by
  have hall : (List.range l.length).filter (· ∉ ([] : List Nat)) = List.range l.length :=
    List.filter_eq_self.mpr fun i _ => by simp
  rw [others, hall, select_range]

theorem others_sublist : (others l is).Sublist l := by
  have hsub : ((List.range l.length).filter (· ∉ is)).Sublist (List.range l.length) :=
    List.filter_sublist
  have hselect := hsub.filterMap fun i => l[i]?
  rwa [← select, ← select, select_range] at hselect

/-- Every element is at one of the positions or at another one. -/
theorem select_append_others_perm (hnodup : is.Nodup) (hlt : ∀ i ∈ is, i < l.length) :
    (select l is ++ others l is).Perm l := by
  have hsame : is.Perm ((List.range l.length).filter (· ∈ is)) := by
    refine (List.perm_ext_iff_of_nodup hnodup (List.nodup_range.filter _)).mpr fun i => ?_
    rw [List.mem_filter, List.mem_range, decide_eq_true_eq]
    exact ⟨fun hi => ⟨hlt i hi, hi⟩, fun hi => hi.2⟩
  have hsplit := List.filter_append_perm (fun i => decide (i ∈ is)) (List.range l.length)
  have hall : (is ++ (List.range l.length).filter (· ∉ is)).Perm (List.range l.length) := by
    refine (hsame.append_right _).trans ?_
    simpa using hsplit
  have hselect := hall.filterMap fun i => l[i]?
  rwa [← select, ← select, select_append, select_range, ← others] at hselect

end Select

/-! ## Slots -/

section Slots

variable {slots : List (Option α)} {l : List α} {is : List Nat}

theorem getElem?_clear (i : Nat) : (clear is slots)[i]? =
    if i ∈ is then slots[i]?.map fun _ => none else slots[i]? := by
  induction is generalizing slots with
  | nil => rfl
  | cons j is ih =>
      show (clear is (slots.set j none))[i]? = _
      rw [ih, List.getElem?_set]
      by_cases hji : j = i
      · subst hji
        by_cases hlt : j < slots.length
        · simp [hlt]
        · simp [hlt]
      · have hij : i ≠ j := Ne.symm hji
        simp [hji, hij]

/-- What is moved is what was in the slots. -/
theorem move_out_eq (h : is.Nodup) :
    moveOut is slots = (is.map fun i => slots[i]?.join, clear is slots) := by
  induction is generalizing slots with
  | nil => rfl
  | cons i is ih =>
      obtain ⟨hi, hrest⟩ := List.nodup_cons.mp h
      have hsame : (is.map fun j => (slots.set i none)[j]?.join) =
          is.map fun j => slots[j]?.join := by
        refine List.map_congr_left fun j hj => ?_
        have hne : i ≠ j := by
          rintro rfl
          exact hi hj
        rw [List.getElem?_set_ne hne]
      rw [moveOut, ih hrest, hsame]
      rfl

/-- The slots that are not emptied stay, in their order. -/
theorem erase_cleared (is : List Nat) (l : List α) :
    eraseNull (clear is (l.map some)) = (others l is).map some := by
  have hslots : clear is (l.map some) =
      (List.range l.length).map fun i => if i ∈ is then none else l[i]? := by
    refine List.ext_getElem? fun i => ?_
    rw [getElem?_clear, List.getElem?_map, List.getElem?_map]
    by_cases hi : i < l.length
    · by_cases his : i ∈ is
      · simp [hi, his]
      · simp [hi, his]
    · simp [hi]
  have hkept : (List.range l.length).filter
      (Option.isSome ∘ fun i => if i ∈ is then none else l[i]?) =
        (List.range l.length).filter (· ∉ is) := by
    refine List.filter_congr fun i hi => ?_
    have hlt : i < l.length := List.mem_range.mp hi
    by_cases his : i ∈ is
    · simp [his]
    · simp [his, hlt]
  rw [eraseNull, hslots, List.filter_map, hkept, others, map_some_select]
  · refine List.map_congr_left fun i hi => ?_
    have his : i ∉ is := of_decide_eq_true (List.mem_filter.mp hi).2
    rw [if_neg his]
  · intro i hi
    exact List.mem_range.mp (List.mem_of_mem_filter hi)

/-- Moving out of full slots: the elements at the positions, and the others are left. -/
theorem move_out_some (hnodup : is.Nodup) (hlt : ∀ i ∈ is, i < l.length) :
    (moveOut is (l.map some)).1 = (select l is).map some ∧
      eraseNull (moveOut is (l.map some)).2 = (others l is).map some := by
  rw [move_out_eq hnodup, map_some_select hlt]
  refine ⟨List.map_congr_left fun i hi => ?_, erase_cleared is l⟩
  have hi' : i < l.length := hlt i hi
  simp [hi']

end Slots

end Positions
