import Mathlib
import Rapidsmpf.Lib.Decimal
import Rapidsmpf.Utils.Stoi

/-!
# Formats of `std::sscanf`

The directives of the formats in `bootstrap/socket_backend.cpp`. A directive takes the rest of the
text and leaves what follows; a format is a sequence of directives, and it fails where one does. A
blank in a format skips any white space.
-/

namespace Rapidsmpf.Utils

open Config Decimal

/-- The characters of a C string. -/
def cStr (text : Bytes) : Bytes := text.takeWhile fun c => c != 0

/-- A blank of the format. -/
def skip (text : Bytes) : Bytes := text.dropWhile isSpace

/-- `%<width>s`. -/
def scanWord (width : Nat) (text : Bytes) : Option (Bytes × Bytes) :=
  let text := skip text
  let word := (text.take width).takeWhile fun c => !isSpace c
  if word.isEmpty then none else some (word, text.drop word.length)

/-- The conversion of `strtoull`. -/
def toUnsigned (z : Int) : Nat :=
  if z.natAbs < 2 ^ 64 then (z % 2 ^ 64).toNat else 2 ^ 64 - 1

/-- The conversion of `strtoll`. -/
def toSigned (z : Int) : Int := max (-2 ^ 63) (min z (2 ^ 63 - 1))

/-- `%zu`. -/
def scanSize (text : Bytes) : Option (Nat × Bytes) :=
  (scanInt (skip text)).map fun r => (toUnsigned r.1, r.2)

/-- `%lld`. -/
def scanLongLong (text : Bytes) : Option (Int × Bytes) :=
  (scanInt (skip text)).map fun r => (toSigned r.1, r.2)

/-- A text without white space. -/
def Spaceless (text : Bytes) : Prop := ∀ c ∈ text, isSpace c = false

instance : DecidablePred Spaceless := fun text =>
  inferInstanceAs (Decidable (∀ c ∈ text, isSpace c = false))

section

variable {text word rest : Bytes}

theorem spaceless_of_all (h : text.all (fun c => !isSpace c) = true) : Spaceless text := by
  intro c hc
  have hchar := List.all_eq_true.mp h c hc
  rwa [Bool.not_eq_true'] at hchar

theorem c_str_of_not_mem (h : 0 ∉ text) : cStr text = text :=
  List.takeWhile_eq_self_iff.mpr fun _ hc => bne_iff_ne.mpr fun hzero => h (hzero ▸ hc)

theorem skip_spaceless (h : Spaceless text) : skip (text ++ rest) = text ++ rest ∨ text = [] := by
  cases text with
  | nil => exact .inr rfl
  | cons c text => exact .inl (dropWhile_of_stops (stops_cons (h c List.mem_cons_self)))

/-- A blank skips the blank that was written. -/
theorem skip_blank (h : Spaceless word) (hne : word ≠ []) :
    skip (32 :: (word ++ rest)) = word ++ rest := by
  show skip (word ++ rest) = word ++ rest
  exact (skip_spaceless h).resolve_right hne

/-- A word is taken whole if the width allows it. -/
theorem scan_word {width : Nat} (h : Spaceless word) (hne : word ≠ [])
    (hlength : word.length ≤ width) (hrest : Stops (fun c => !isSpace c) rest) :
    scanWord width (word ++ rest) = some (word, rest) := by
  have hstops : Stops (fun c => !isSpace c) (rest.take (width - word.length)) := by
    intro c hc
    rw [List.head?_take] at hc
    split at hc
    · cases hc
    · exact hrest c hc
  have htake : ((word ++ rest).take width).takeWhile (fun c => !isSpace c) = word := by
    rw [List.take_append, List.take_of_length_le hlength]
    exact takeWhile_word (fun c hc => by simp [h c hc]) hstops
  rw [scanWord, (skip_spaceless h).resolve_right hne, htake]
  simp [hne]

/-- An integer literal is found behind its own beginning. -/
theorem scan_int_literal {z : Int} (h : Numeral word z) (hrest : Stops isDigit rest) :
    scanInt (skip (word ++ rest)) = some (z, rest) := by
  have hspaceless : Spaceless word := fun c hc => is_space_of_numeral h hc
  rw [(skip_spaceless hspaceless).resolve_right (numeral_ne_nil h)]
  exact scan_int_eq_some.mpr ⟨word, h, rfl, hrest⟩

/-- A printed size is read back. -/
theorem scan_size_print {n : Nat} (hn : n < 2 ^ 64) (hrest : Stops isDigit rest) :
    scanSize (print n ++ rest) = some (n, rest) := by
  have hunsigned : toUnsigned (n : Int) = n := by
    rw [toUnsigned, Int.natAbs_natCast, if_pos hn]
    omega
  rw [scanSize, scan_int_literal (numeral_print n) hrest, Option.map_some, hunsigned]

theorem scan_long_long_print {z : Int} (hrest : Stops isDigit rest) :
    scanLongLong (printInt z ++ rest) = some (toSigned z, rest) := by
  rw [scanLongLong, scan_int_literal (numeral_print_int z) hrest, Option.map_some]

/-- A text behind what the format has is taken. -/
theorem drop_prefix (word rest : Bytes) : (word ++ rest).dropPrefix? word = some rest :=
  List.dropPrefix?_append_of_beq rest (BEq.refl word)

end

end Rapidsmpf.Utils
