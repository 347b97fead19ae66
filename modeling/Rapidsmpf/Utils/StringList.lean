import Mathlib
import Rapidsmpf.Config.Options

/-!
# Lists in strings

`parse_string_list` of `string.cpp` looks for the next delimiter from where the last one was, and
keeps what is between, trimmed. `split_loop_eq` says that its loop visits the fields of the text in
order. `trim` drops the white space around a field, but also all that follows the first white space
inside of it: `parse_string_list_iff` says for which texts nothing is lost.
-/

namespace Rapidsmpf.Utils

open Config

/-! ## The loop -/

/-- `find` of a string view, from a position on. -/
def find (text : Bytes) (c : UInt8) (start : Nat) : Option Nat :=
  ((text.drop start).findIdx? (· == c)).map (start + ·)

/-- What is between a position and the next occurrence of a character. -/
theorem find_eq_some {text : Bytes} {c : UInt8} {start pos : Nat}
    (h : find text c start = some pos) :
    start ≤ pos ∧ pos < text.length ∧ c ∉ (text.drop start).take (pos - start) ∧
      text.drop start = (text.drop start).take (pos - start) ++ c :: text.drop (pos + 1) := by
  obtain ⟨i, hi, rfl⟩ := Option.map_eq_some_iff.mp h
  obtain ⟨hlt, hc, hbefore⟩ := List.findIdx?_eq_some_iff_getElem.mp hi
  have hrest : (text.drop start).drop i = c :: text.drop (start + i + 1) := by
    rw [List.drop_eq_getElem_cons hlt, beq_iff_eq.mp hc, List.drop_drop, Nat.add_assoc]
  rw [List.length_drop] at hlt
  rw [Nat.add_sub_cancel_left]
  refine ⟨Nat.le_add_right _ _, by omega, ?_, ?_⟩
  · intro hmem
    obtain ⟨j, hj, heq⟩ := List.mem_iff_getElem.mp hmem
    rw [List.length_take] at hj
    rw [List.getElem_take] at heq
    have hne := hbefore j (by omega)
    rw [heq] at hne
    simp at hne
  · rw [← hrest, List.take_append_drop]

theorem find_eq_none {text : Bytes} {c : UInt8} {start : Nat} (h : find text c start = none) :
    c ∉ text.drop start := by
  rw [find, Option.map_eq_none_iff, List.findIdx?_eq_none_iff] at h
  intro hmem
  have hne := h c hmem
  simp at hne

/-- The loop of `parse_string_list`. -/
def splitLoop (text : Bytes) (delimiter : UInt8) (start : Nat) (ret : List Bytes) : List Bytes :=
  match _h : find text delimiter start with
  | none => ret ++ [trim (text.drop start)]
  | some pos =>
      splitLoop text delimiter (pos + 1) (ret ++ [trim ((text.drop start).take (pos - start))])
termination_by text.length - start
decreasing_by
  have := find_eq_some ‹find text delimiter start = some pos›
  omega

/-- `parse_string_list`. -/
def parseStringList (text : Bytes) (delimiter : UInt8) : List Bytes :=
  if (trim text).isEmpty then [] else splitLoop text delimiter 0 []

/-- The loop trims the fields of the text one after the other. -/
theorem split_loop_eq (text : Bytes) (delimiter : UInt8) (start : Nat) (ret : List Bytes) :
    splitLoop text delimiter start ret =
      ret ++ ((text.drop start).splitOn delimiter).map trim := by
  induction start, ret using splitLoop.induct text delimiter with
  | case1 start ret h =>
      rw [splitLoop]
      split
      · rw [List.splitOn_eq_singleton (find_eq_none h), List.map_singleton]
      · next pos h' => rw [h] at h'; cases h'
  | case2 start ret pos h ih =>
      obtain ⟨-, -, hfield, hsplit⟩ := find_eq_some h
      rw [splitLoop]
      split
      · next h' => rw [h] at h'; cases h'
      · next pos' h' =>
          obtain rfl : pos' = pos := by simpa [h] using h'.symm
          rw [ih]
          conv => rhs; rw [hsplit, List.splitOn_append_cons_self_of_not_mem hfield]
          rw [List.map_cons, List.append_assoc, List.singleton_append]

/-! ## Fields -/

/-- A field without the white space before and behind it. -/
def strip (field : Bytes) : Bytes := (field.dropWhile isSpace).rdropWhile isSpace

/-- There is no white space in the field but before and behind the rest. -/
def Solid (field : Bytes) : Prop := ∀ c ∈ strip field, isSpace c = false

/-- Number of characters that are not white space. -/
def inked (text : Bytes) : Nat := text.countP fun c => !isSpace c

theorem inked_append (a b : Bytes) : inked (a ++ b) = inked a + inked b := List.countP_append

theorem inked_of_blank {text : Bytes} (h : ∀ c ∈ text, isSpace c = true) : inked text = 0 :=
  List.countP_eq_zero.mpr fun c hc => by simp [h c hc]

/-- What is trimmed off a field: white space before it, and all from the first white space on
behind it. -/
theorem exists_trim (field : Bytes) : ∃ left right : Bytes, field = left ++ (trim field ++ right) ∧
    (∀ c ∈ left, isSpace c = true) ∧ (∀ c ∈ trim field, isSpace c = false) ∧
    ∀ c ∈ right.head?, isSpace c = true := by
  refine ⟨field.takeWhile isSpace, (field.dropWhile isSpace).dropWhile fun c => !isSpace c,
    ?_, ?_, ?_, ?_⟩
  · rw [trim, List.takeWhile_append_dropWhile, List.takeWhile_append_dropWhile]
  · exact fun c hc => List.mem_takeWhile_imp hc
  · intro c hc
    simpa using List.mem_takeWhile_imp hc
  · intro c hc
    have hnot := List.head?_dropWhile_not (fun c => !isSpace c) (field.dropWhile isSpace)
    rw [Option.mem_def.mp hc] at hnot
    simpa using hnot

theorem rdropWhile_append_of_blank {text right : Bytes} (h : ∀ c ∈ right, isSpace c = true) :
    (text ++ right).rdropWhile isSpace = text.rdropWhile isSpace := by
  rw [List.rdropWhile, List.rdropWhile, List.reverse_append,
    List.dropWhile_append_of_pos fun c hc => h c (List.mem_reverse.mp hc)]

/-- A word with white space around it. -/
theorem strip_of_word {left word right : Bytes} (hleft : ∀ c ∈ left, isSpace c = true)
    (hword : ∀ c ∈ word, isSpace c = false) (hright : ∀ c ∈ right, isSpace c = true) :
    strip (left ++ (word ++ right)) = word := by
  have hlast : word.rdropWhile isSpace = word := by
    rw [List.rdropWhile_eq_self_iff]
    intro hne
    rw [hword _ (List.getLast_mem hne)]
    simp
  rw [strip, List.dropWhile_append_of_pos hleft]
  cases word with
  | nil =>
      have hnone : right.dropWhile isSpace = [] := List.dropWhile_eq_nil_iff.mpr hright
      rw [List.nil_append, hnone]
      rfl
  | cons c word =>
      rw [List.cons_append, List.dropWhile_cons_of_neg (by simp [hword c List.mem_cons_self]),
        ← List.cons_append, rdropWhile_append_of_blank hright, hlast]

/-- A field is what is left of it, with white space around. -/
theorem exists_strip (field : Bytes) : ∃ left right : Bytes,
    field = left ++ (strip field ++ right) ∧ (∀ c ∈ left, isSpace c = true) ∧
      (∀ c ∈ right, isSpace c = true) ∧
      trim field = (strip field ++ right).takeWhile fun c => !isSpace c := by
  refine ⟨field.takeWhile isSpace, (field.dropWhile isSpace).rtakeWhile isSpace, ?_, ?_, ?_, ?_⟩
  · rw [strip, List.rdropWhile_append_rtakeWhile, List.takeWhile_append_dropWhile]
  · exact fun c hc => List.mem_takeWhile_imp hc
  · exact fun c hc => List.mem_takeWhile_imp (List.mem_reverse.mp hc)
  · rw [strip, List.rdropWhile_append_rtakeWhile, trim]

/-- Trimming a field loses nothing but the white space around it exactly when it is solid. -/
theorem solid_iff_trim (field : Bytes) : Solid field ↔ trim field = strip field := by
  constructor
  · intro hsolid
    obtain ⟨left, right, -, -, hright, htrim⟩ := exists_strip field
    have hnone : (right.takeWhile fun c => !isSpace c) = [] := by
      cases right with
      | nil => rfl
      | cons c right => exact List.takeWhile_cons_of_neg (by simp [hright c List.mem_cons_self])
    rw [htrim, List.takeWhile_append_of_pos fun c hc => by simp [hsolid c hc], hnone,
      List.append_nil]
  · intro heq c hc
    obtain ⟨-, -, -, -, hword, -⟩ := exists_trim field
    exact hword c (heq ▸ hc)

theorem inked_trim_le (field : Bytes) : inked (trim field) ≤ inked field := by
  obtain ⟨left, right, hfield, -⟩ := exists_trim field
  have hcount := congrArg inked hfield
  rw [inked_append, inked_append] at hcount
  omega

/-- The characters of a field that is not solid do not all remain. -/
theorem solid_iff_inked (field : Bytes) : Solid field ↔ inked (trim field) = inked field := by
  rw [solid_iff_trim]
  constructor
  · intro heq
    obtain ⟨left, right, hfield, hleft, hright, -⟩ := exists_strip field
    have hcount := congrArg inked hfield
    rw [inked_append, inked_append, inked_of_blank hleft, inked_of_blank hright] at hcount
    rw [heq]
    omega
  · intro heq
    obtain ⟨left, right, hfield, hleft, hword, -⟩ := exists_trim field
    have hcount := congrArg inked hfield
    rw [inked_append, inked_append, inked_of_blank hleft] at hcount
    have hnone : inked right = 0 := by omega
    have hblank : ∀ c ∈ right, isSpace c = true := by
      intro c hc
      simpa using List.countP_eq_zero.mp hnone c hc
    have hstrip := strip_of_word hleft hword hblank
    rw [← hfield] at hstrip
    exact hstrip.symm

/-! ## Joining -/

/-- The field is the element, with white space around it. -/
def Padded (element field : Bytes) : Prop := ∃ left right : Bytes,
  (∀ c ∈ left, isSpace c = true) ∧ (∀ c ∈ right, isSpace c = true) ∧
    field = left ++ (element ++ right)

/-- The elements joined by the delimiter are the text, up to white space next to delimiters and at
the ends. -/
def Rejoins (delimiter : UInt8) (elements : List Bytes) (text : Bytes) : Prop :=
  ∃ fields, List.Forall₂ Padded elements fields ∧ [delimiter].intercalate fields = text

theorem inked_padded {element field : Bytes} (h : Padded element field) :
    inked field = inked element := by
  obtain ⟨left, right, hleft, hright, rfl⟩ := h
  rw [inked_append, inked_append, inked_of_blank hleft, inked_of_blank hright, Nat.zero_add,
    Nat.add_zero]

theorem sum_inked_padded {elements fields : List Bytes}
    (h : List.Forall₂ Padded elements fields) :
    (fields.map inked).sum = (elements.map inked).sum := by
  induction h with
  | nil => rfl
  | cons hone _ ih => rw [List.map_cons, List.map_cons, List.sum_cons, List.sum_cons, ih,
      inked_padded hone]

theorem inked_intercalate (delimiter : UInt8) (fields : List Bytes) :
    inked ([delimiter].intercalate fields) =
      (fields.map inked).sum + (fields.length - 1) * inked [delimiter] := by
  induction fields with
  | nil => simp [inked]
  | cons field fields ih =>
      cases fields with
      | nil => simp
      | cons next fields =>
          have hsum : ((field :: next :: fields).map inked).sum =
              inked field + ((next :: fields).map inked).sum := List.sum_cons
          rw [List.intercalate_cons_cons, inked_append, inked_append, ih, hsum]
          simp only [List.length_cons, Nat.add_sub_cancel]
          ring

/-- Sums of numbers none of which is larger than its counterpart. -/
theorem eq_of_sum_eq {f g : Bytes → Nat} {l : List Bytes} (hle : ∀ x ∈ l, f x ≤ g x)
    (hsum : (l.map f).sum = (l.map g).sum) : ∀ x ∈ l, f x = g x := by
  induction l with
  | nil => exact fun x hx => nomatch hx
  | cons a l ih =>
      have hrest : (l.map f).sum ≤ (l.map g).sum :=
        List.sum_le_sum fun x hx => hle x (List.mem_cons_of_mem a hx)
      have hhead := hle a List.mem_cons_self
      simp only [List.map_cons, List.sum_cons] at hsum
      intro x hx
      rcases List.mem_cons.mp hx with rfl | hx
      · omega
      · exact ih (fun y hy => hle y (List.mem_cons_of_mem a hy)) (by omega) x hx

/-- The trimmed fields give the text back exactly when all of them are solid. -/
theorem rejoins_iff (delimiter : UInt8) (text : Bytes) :
    Rejoins delimiter ((text.splitOn delimiter).map trim) text ↔
      ∀ field ∈ text.splitOn delimiter, Solid field := by
  constructor
  · rintro ⟨fields, hpadded, htext⟩
    have hink := sum_inked_padded hpadded
    have hlength := hpadded.length_eq
    rw [List.length_map] at hlength
    have hcount := inked_intercalate delimiter fields
    rw [htext, hink, ← hlength] at hcount
    have hcount' := inked_intercalate delimiter (text.splitOn delimiter)
    rw [List.intercalate_splitOn] at hcount'
    rw [List.map_map] at hcount
    have heach := eq_of_sum_eq (l := text.splitOn delimiter) (f := inked ∘ trim) (g := inked)
      (fun field _ => inked_trim_le field) (by omega)
    exact fun field hfield => (solid_iff_inked field).mpr (heach field hfield)
  · intro hsolid
    refine ⟨text.splitOn delimiter, ?_, List.intercalate_splitOn delimiter⟩
    rw [List.forall₂_map_left_iff, List.forall₂_same]
    intro field hfield
    obtain ⟨left, right, heq, hleft, hright, -⟩ := exists_strip field
    rw [(solid_iff_trim field).mp (hsolid field hfield)]
    exact ⟨left, right, hleft, hright, heq⟩

theorem trim_eq_nil_iff {text : Bytes} : trim text = [] ↔ ∀ c ∈ text, isSpace c = true := by
  constructor
  · intro hnil
    refine List.dropWhile_eq_nil_iff.mp ?_
    cases hrest : text.dropWhile isSpace with
    | nil => rfl
    | cons c rest =>
        have hhead := List.head?_dropWhile_not isSpace text
        rw [hrest] at hhead
        have hc : isSpace c = false := by simpa using hhead
        rw [trim, hrest, List.takeWhile_cons_of_pos (by simp [hc])] at hnil
        cases hnil
  · intro hblank
    have hnone : text.dropWhile isSpace = [] := List.dropWhile_eq_nil_iff.mpr hblank
    rw [trim, hnone]
    rfl

/-- The elements are the trimmed fields. -/
theorem parse_string_list_eq {text : Bytes} (h : ¬ ∀ c ∈ text, isSpace c = true)
    (delimiter : UInt8) :
    parseStringList text delimiter = (text.splitOn delimiter).map trim := by
  have hne : (trim text).isEmpty = false := by
    rw [List.isEmpty_eq_false_iff]
    exact fun hnil => h (trim_eq_nil_iff.mp hnil)
  rw [parseStringList, hne, if_neg Bool.false_ne_true, split_loop_eq, List.nil_append,
    List.drop_zero]

/-- A text that is not blank has as many elements as fields. These are its fields without the white
space around them, and give the text back up to such white space, exactly when no field has white
space inside. -/
theorem parse_string_list_iff {text : Bytes} (h : ¬ ∀ c ∈ text, isSpace c = true)
    (delimiter : UInt8) :
    (parseStringList text delimiter).length = (text.splitOn delimiter).length ∧
    (parseStringList text delimiter = (text.splitOn delimiter).map strip ↔
      ∀ field ∈ text.splitOn delimiter, Solid field) ∧
    (Rejoins delimiter (parseStringList text delimiter) text ↔
      ∀ field ∈ text.splitOn delimiter, Solid field) := by
  rw [parse_string_list_eq h]
  refine ⟨List.length_map _, ?_, rejoins_iff delimiter text⟩
  rw [List.map_inj_left]
  exact forall₂_congr fun field _ => (solid_iff_trim field).symm

/-- The text `a, b`, of two words. -/
theorem parse_string_list_words :
    Rejoins 44 (parseStringList [97, 44, 32, 98] 44) [97, 44, 32, 98] :=
  (parse_string_list_iff (by decide) 44).2.2.mpr (by
    have hfirst : strip [97] = [97] := rfl
    have hsecond : strip [32, 98] = [98] := rfl
    have hfields : ([97, 44, 32, 98] : Bytes).splitOn 44 = [[97], [32, 98]] := rfl
    simp only [hfields, List.forall_mem_cons, Solid, hfirst, hsecond]
    exact ⟨⟨rfl, nofun⟩, ⟨rfl, nofun⟩, nofun⟩)

/-- In the text `a b,c` the second word of the first field is lost. -/
theorem parse_string_list_loses :
    parseStringList [97, 32, 98, 44, 99] 44 = [[97], [99]] ∧
      ([97, 32, 98, 44, 99].splitOn 44).map strip = [[97, 32, 98], [99]] := by
  refine ⟨?_, by decide⟩
  rw [parse_string_list_eq (by decide)]
  decide

end Rapidsmpf.Utils
