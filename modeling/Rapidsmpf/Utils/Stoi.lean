import Mathlib
import Rapidsmpf.Lib.Decimal
import Rapidsmpf.Config.Options

/-!
# Integers at the beginning of a string

`std::stoi` as the parsers of configuration strings use it: white space in front is skipped, and
what follows the longest integer literal is ignored.
-/

namespace Rapidsmpf.Utils

open Config Decimal

/-- The exceptions of `std::stoi`. -/
inductive StoiError where
  | invalidArgument
  | outOfRange
deriving DecidableEq

/-- The values of an `int`. -/
def IsInt (n : Int) : Prop := -2 ^ 31 ≤ n ∧ n < 2 ^ 31

instance : DecidablePred IsInt := fun n => inferInstanceAs (Decidable (-2 ^ 31 ≤ n ∧ n < 2 ^ 31))

/-- `std::stoi`. A null character, where the C string ends, is not part of a literal either. -/
def stoi (text : Bytes) : Except StoiError Int :=
  match scanInt (text.dropWhile isSpace) with
  | none => .error .invalidArgument
  | some (n, _) => if IsInt n then .ok n else .error .outOfRange

/-- A character of a literal. -/
theorem is_space_of_numeral {literal : Bytes} {n : Int} (h : Numeral literal n) {c : UInt8}
    (hc : c ∈ literal) : isSpace c = false := by
  have hdigit : ∀ d : UInt8, isDigit d = true → isSpace d = false := by
    intro d hd
    rw [is_digit_iff] at hd
    have hne : d ≠ 32 := by
      rintro rfl
      exact absurd hd.1 (by decide)
    simp only [isSpace, Bool.or_eq_false_iff, decide_eq_false_iff_not, Bool.and_eq_false_iff,
      UInt8.le_iff_toNat_le, UInt8.reduceToNat]
    exact ⟨hne, .inr (by omega)⟩
  cases h with
  | unsigned h _ => exact hdigit c (h c hc)
  | plus h _ =>
      rcases List.mem_cons.mp hc with rfl | hc
      · rfl
      · exact hdigit c (h c hc)
  | minus h _ =>
      rcases List.mem_cons.mp hc with rfl | hc
      · rfl
      · exact hdigit c (h c hc)

theorem numeral_ne_nil {literal : Bytes} {n : Int} (h : Numeral literal n) : literal ≠ [] := by
  cases h with
  | unsigned _ hne => exact hne
  | plus => exact List.cons_ne_nil _ _
  | minus => exact List.cons_ne_nil _ _

theorem stops_of_blank {right : Bytes} (h : ∀ c ∈ right, isSpace c = true) :
    Stops isDigit right := by
  intro c hc
  have hspace := h c (List.mem_of_mem_head? hc)
  by_contra hdigit
  rw [Bool.not_eq_false] at hdigit
  have hliteral : Numeral [c] (value [c]) := .unsigned (by simpa using hdigit) (by simp)
  have hnot := is_space_of_numeral hliteral List.mem_cons_self
  rw [hspace] at hnot
  cases hnot

/-- White space behind a text does not change the literal at its beginning. -/
theorem scan_int_append {text right : Bytes} (hright : ∀ c ∈ right, isSpace c = true) :
    scanInt (text ++ right) = (scanInt text).map fun r => (r.1, r.2 ++ right) := by
  cases hscan : scanInt text with
  | some r =>
      obtain ⟨n, rest⟩ := r
      obtain ⟨literal, hliteral, rfl, hstops⟩ := scan_int_eq_some.mp hscan
      refine scan_int_eq_some.mpr ⟨literal, hliteral, List.append_assoc .., ?_⟩
      cases rest with
      | nil => exact stops_of_blank hright
      | cons c rest => exact stops_cons (hstops c rfl)
  | none =>
      cases hall : scanInt (text ++ right) with
      | none => rfl
      | some r =>
          obtain ⟨n, rest⟩ := r
          obtain ⟨literal, hliteral, heq, -⟩ := scan_int_eq_some.mp hall
          rcases List.append_eq_append_iff.mp heq with ⟨more, rfl, hmore⟩ | ⟨more, rfl, -⟩
          · cases more with
            | nil =>
                rw [List.append_nil] at hliteral
                exact absurd (List.append_nil _).symm (scan_int_eq_none hscan hliteral)
            | cons c more =>
                -- the literal would have white space in it
                have hnot := is_space_of_numeral hliteral
                  (List.mem_append_right _ (List.mem_cons_self (a := c)))
                rw [hright c (by rw [hmore]; exact List.mem_cons_self)] at hnot
                cases hnot
          · exact absurd rfl (scan_int_eq_none hscan hliteral)

/-- A string of digits is read as its value, if this is an `int`. -/
theorem stoi_digits {digits : Bytes} (h : ∀ c ∈ digits, isDigit c = true) (hne : digits ≠ []) :
    stoi digits = if value digits < 2 ^ 31 then .ok (value digits) else .error .outOfRange := by
  have hdrop : digits.dropWhile isSpace = digits := by
    refine dropWhile_of_stops fun c hc => ?_
    exact is_space_of_numeral (.unsigned h hne) (List.mem_of_mem_head? hc)
  have hscan : scanInt digits = some ((value digits : Int), []) :=
    scan_int_eq_some.mpr ⟨digits, .unsigned h hne, (List.append_nil _).symm, stops_nil⟩
  have hint : IsInt (value digits) ↔ value digits < 2 ^ 31 := by
    rw [IsInt]
    omega
  rw [stoi, hdrop, hscan]
  simp only [hint]

end Rapidsmpf.Utils
