import Mathlib

/-!
# Decimal numbers in text

Text is a list of bytes. `value` is the number a string of digits denotes and `print` the shortest
string for a number. `scanNat` and `scanInt` take the longest number at the beginning of a text, as
the functions of a C library do behind white space; `Numeral` says what an integer literal is
without reference to a scan.
-/

namespace Decimal

/-! ## Scanning -/

section

variable {α : Type} {p : α → Bool} {word rest : List α}

/-- What follows does not begin with a character of the class. -/
def Stops (p : α → Bool) (rest : List α) : Prop := ∀ c ∈ rest.head?, p c = false

theorem stops_nil : Stops p [] := fun _ hc => nomatch hc

theorem stops_cons {c : α} (h : p c = false) : Stops p (c :: rest) := by
  intro d hd
  obtain rfl : c = d := Option.some.inj hd
  exact h

theorem takeWhile_of_stops (hrest : Stops p rest) : rest.takeWhile p = [] := by
  cases rest with
  | nil => rfl
  | cons c rest => rw [List.takeWhile_cons_of_neg (by simp [hrest c rfl])]

theorem dropWhile_of_stops (hrest : Stops p rest) : rest.dropWhile p = rest := by
  cases rest with
  | nil => rfl
  | cons c rest => rw [List.dropWhile_cons_of_neg (by simp [hrest c rfl])]

/-- A scan takes a word up to where it stops. -/
theorem takeWhile_word (hword : ∀ c ∈ word, p c = true) (hrest : Stops p rest) :
    (word ++ rest).takeWhile p = word := by
  rw [List.takeWhile_append_of_pos hword, takeWhile_of_stops hrest, List.append_nil]

theorem dropWhile_word (hword : ∀ c ∈ word, p c = true) (hrest : Stops p rest) :
    (word ++ rest).dropWhile p = rest := by
  rw [List.dropWhile_append_of_pos hword, dropWhile_of_stops hrest]

theorem stops_dropWhile (p : α → Bool) (text : List α) : Stops p (text.dropWhile p) := by
  intro c hc
  have hnot := List.head?_dropWhile_not p text
  rw [Option.mem_def.mp hc] at hnot
  simpa using hnot

end

/-! ## Digits -/

/-- A decimal digit of the ASCII code. -/
def isDigit (c : UInt8) : Bool := 48 ≤ c && c ≤ 57

/-- The number of a digit. -/
def digit (c : UInt8) : Nat := c.toNat - 48

/-- The digit of a number below ten. -/
def ofDigit (d : Nat) : UInt8 := .ofNat (48 + d)

/-- The number a string of digits denotes, the most significant digit first. -/
def value (digits : List UInt8) : Nat := digits.foldl (fun n c => 10 * n + digit c) 0

/-- The digits of a number, without leading zeros. -/
def print (n : Nat) : List UInt8 := if n = 0 then [48] else (Nat.digits 10 n).reverse.map ofDigit

theorem is_digit_iff {c : UInt8} : isDigit c = true ↔ 48 ≤ c.toNat ∧ c.toNat ≤ 57 := by
  simp [isDigit, UInt8.le_iff_toNat_le]

theorem to_nat_of_digit {d : Nat} (h : d < 10) : (ofDigit d).toNat = 48 + d := by
  rw [ofDigit, UInt8.toNat_ofNat']
  omega

theorem digit_of_digit {d : Nat} (h : d < 10) : digit (ofDigit d) = d := by
  rw [digit, to_nat_of_digit h, Nat.add_sub_cancel_left]

theorem is_digit_of_digit {d : Nat} (h : d < 10) : isDigit (ofDigit d) = true := by
  rw [is_digit_iff, to_nat_of_digit h]
  omega

theorem value_concat (digits : List UInt8) (c : UInt8) :
    value (digits ++ [c]) = 10 * value digits + digit c := by
  rw [value, List.foldl_append]
  rfl

/-- The value by the weights of the digits. -/
theorem value_eq (digits : List UInt8) :
    value digits = Nat.ofDigits 10 (digits.reverse.map digit) := by
  induction digits using List.reverseRecOn with
  | nil => rfl
  | append_singleton digits c ih =>
      rw [value_concat, ih, List.reverse_concat, List.map_cons, Nat.ofDigits_cons]
      exact Nat.add_comm _ _

theorem value_append (front back : List UInt8) :
    value (front ++ back) = value front * 10 ^ back.length + value back := by
  induction back using List.reverseRecOn with
  | nil => simp [value]
  | append_singleton back c ih =>
      rw [← List.append_assoc, value_concat, ih, value_concat, List.length_append,
        List.length_singleton, pow_succ]
      ring

/-- A printed number consists of digits. -/
theorem print_digits {n : Nat} {c : UInt8} (h : c ∈ print n) : isDigit c = true := by
  rw [print] at h
  split at h
  · obtain rfl : c = 48 := List.mem_singleton.mp h
    rfl
  · obtain ⟨d, hd, rfl⟩ := List.mem_map.mp h
    exact is_digit_of_digit (Nat.digits_lt_base (by decide) (List.mem_reverse.mp hd))

theorem print_ne_nil (n : Nat) : print n ≠ [] := by
  rw [print]
  split
  · exact List.cons_ne_nil _ _
  · next hn => simpa [Nat.digits_eq_nil_iff_eq_zero] using hn

/-- A printed number denotes the number. -/
theorem value_print (n : Nat) : value (print n) = n := by
  rw [print]
  split
  · next hn => rw [hn]; rfl
  · have hdigits : ((Nat.digits 10 n).map ofDigit).map digit = Nat.digits 10 n := by
      rw [List.map_map]
      refine (List.map_congr_left fun d hd => ?_).trans (List.map_id _)
      exact digit_of_digit (Nat.digits_lt_base (by decide) hd)
    rw [value_eq, List.map_reverse, List.map_reverse, List.map_reverse, List.reverse_reverse,
      hdigits, Nat.ofDigits_digits]

/-- A printed number has no more digits than a power of ten above it. -/
theorem print_length_le {n k : Nat} (hk : 0 < k) (h : n < 10 ^ k) : (print n).length ≤ k := by
  rw [print]
  split
  · exact hk
  · rw [List.length_map, List.length_reverse]
    exact (Nat.digits_length_le_iff (by decide) n).mpr h

/-- A number with its sign. -/
def printInt (z : Int) : List UInt8 := if z < 0 then 45 :: print z.natAbs else print z.natAbs

theorem print_int_char {z : Int} {c : UInt8} (h : c ∈ printInt z) : c = 45 ∨ isDigit c = true := by
  rw [printInt] at h
  split at h
  · exact (List.mem_cons.mp h).imp_right print_digits
  · exact .inr (print_digits h)

theorem print_int_length_le {z : Int} {k : Nat} (hk : 0 < k) (h : z.natAbs < 10 ^ k) :
    (printInt z).length ≤ k + 1 := by
  have hlength := print_length_le hk h
  rw [printInt]
  split
  · exact Nat.succ_le_succ hlength
  · exact Nat.le_succ_of_le hlength

/-! ## Numbers at the beginning of a text -/

/-- The longest number at the beginning of a text, and what follows it. -/
def scanNat (text : List UInt8) : Option (Nat × List UInt8) :=
  if (text.takeWhile isDigit).isEmpty then none
  else some (value (text.takeWhile isDigit), text.dropWhile isDigit)

/-- A sign at the beginning of a text: whether it is negative, and what follows it. -/
def takeSign : List UInt8 → Bool × List UInt8
  | [] => (false, [])
  | c :: rest =>
      if c = 43 then (false, rest)
      else if c = 45 then (true, rest)
      else (false, c :: rest)

/-- The longest integer at the beginning of a text, and what follows it. -/
def scanInt (text : List UInt8) : Option (Int × List UInt8) :=
  (scanNat (takeSign text).2).map fun r => (if (takeSign text).1 then -r.1 else r.1, r.2)

theorem scan_nat_word {digits rest : List UInt8} (hdigits : ∀ c ∈ digits, isDigit c = true)
    (hne : digits ≠ []) (hrest : Stops isDigit rest) :
    scanNat (digits ++ rest) = some (value digits, rest) := by
  rw [scanNat, takeWhile_word hdigits hrest, dropWhile_word hdigits hrest, if_neg]
  rwa [List.isEmpty_iff]

theorem scan_nat_eq_some {text rest : List UInt8} {n : Nat} :
    scanNat text = some (n, rest) ↔ ∃ digits, (∀ c ∈ digits, isDigit c = true) ∧ digits ≠ [] ∧
      n = value digits ∧ text = digits ++ rest ∧ Stops isDigit rest := by
  constructor
  · intro h
    rw [scanNat] at h
    split at h
    · cases h
    · next hne =>
      cases h
      refine ⟨text.takeWhile isDigit, fun c hc => List.mem_takeWhile_imp hc, ?_, rfl,
        List.takeWhile_append_dropWhile.symm, stops_dropWhile _ _⟩
      rwa [List.isEmpty_iff] at hne
  · rintro ⟨digits, hdigits, hne, rfl, rfl, hrest⟩
    exact scan_nat_word hdigits hne hrest

theorem scan_nat_eq_none {text : List UInt8} : scanNat text = none ↔ Stops isDigit text := by
  constructor
  · intro h c hc
    cases text with
    | nil => cases hc
    | cons d text =>
        obtain rfl : d = c := Option.some.inj hc
        by_contra hdigit
        rw [Bool.not_eq_false] at hdigit
        rw [scanNat, List.takeWhile_cons_of_pos hdigit] at h
        cases h
  · intro h
    rw [scanNat, takeWhile_of_stops h]
    rfl

/-! ## Integer literals -/

/-- Integer literals, and the numbers they denote. -/
inductive Numeral : List UInt8 → Int → Prop where
  | unsigned {digits : List UInt8} (h : ∀ c ∈ digits, isDigit c = true) (hne : digits ≠ []) :
      Numeral digits (value digits)
  | plus {digits : List UInt8} (h : ∀ c ∈ digits, isDigit c = true) (hne : digits ≠ []) :
      Numeral (43 :: digits) (value digits)
  | minus {digits : List UInt8} (h : ∀ c ∈ digits, isDigit c = true) (hne : digits ≠ []) :
      Numeral (45 :: digits) (-value digits)

theorem take_sign_digits {digits rest : List UInt8} (hdigits : ∀ c ∈ digits, isDigit c = true)
    (hne : digits ≠ []) : takeSign (digits ++ rest) = (false, digits ++ rest) := by
  cases digits with
  | nil => exact absurd rfl hne
  | cons c digits =>
      have hc := is_digit_iff.mp (hdigits c List.mem_cons_self)
      rw [List.cons_append, takeSign, if_neg, if_neg]
      · rintro rfl
        exact absurd hc.1 (by decide)
      · rintro rfl
        exact absurd hc.1 (by decide)

/-- A scan takes the integer literal up to where no digit follows. -/
theorem scan_int_eq_some {text rest : List UInt8} {z : Int} :
    scanInt text = some (z, rest) ↔
      ∃ literal, Numeral literal z ∧ text = literal ++ rest ∧ Stops isDigit rest := by
  constructor
  · intro h
    obtain ⟨⟨n, rest'⟩, hscan, heq⟩ := Option.map_eq_some_iff.mp h
    obtain ⟨rfl, rfl⟩ := Prod.mk.inj heq
    obtain ⟨digits, hdigits, hne, rfl, htext, hstops⟩ := scan_nat_eq_some.mp hscan
    cases text with
    | nil =>
        have hnil : digits = [] := (List.append_eq_nil_iff.mp htext.symm).1
        exact absurd hnil hne
    | cons c text =>
        rw [takeSign] at htext ⊢
        split at htext
        · next hc =>
            obtain rfl := hc
            dsimp only at htext
            exact ⟨43 :: digits, .plus hdigits hne, by rw [htext]; rfl, hstops⟩
        · next hc =>
            rw [if_neg hc]
            split at htext
            · next hc =>
                obtain rfl := hc
                dsimp only at htext
                exact ⟨45 :: digits, .minus hdigits hne, by rw [htext]; rfl, hstops⟩
            · next hc =>
                rw [if_neg hc]
                exact ⟨digits, .unsigned hdigits hne, htext, hstops⟩
  · rintro ⟨literal, hliteral, rfl, hstops⟩
    cases hliteral with
    | unsigned h hne =>
        rw [scanInt, take_sign_digits h hne, scan_nat_word h hne hstops]
        rfl
    | plus h hne =>
        show (scanNat (_ ++ rest)).map _ = _
        rw [scan_nat_word h hne hstops]
        rfl
    | minus h hne =>
        show (scanNat (_ ++ rest)).map _ = _
        rw [scan_nat_word h hne hstops]
        rfl

theorem numeral_print (n : Nat) : Numeral (print n) n := by
  have hnumeral := Numeral.unsigned (fun _ => print_digits) (print_ne_nil n)
  rwa [value_print] at hnumeral

theorem numeral_print_int (z : Int) : Numeral (printInt z) z := by
  rw [printInt]
  split
  · next hneg =>
      have hnumeral := Numeral.minus (fun _ => print_digits) (print_ne_nil z.natAbs)
      have habs : -(z.natAbs : Int) = z := by omega
      rwa [value_print, habs] at hnumeral
  · next hpos =>
      have habs : (z.natAbs : Int) = z := by omega
      have hnumeral := numeral_print z.natAbs
      rwa [habs] at hnumeral

/-- No literal is at the beginning of a text in which none is found. -/
theorem scan_int_eq_none {text : List UInt8} (h : scanInt text = none) {literal rest : List UInt8}
    {z : Int} (hliteral : Numeral literal z) : text ≠ literal ++ rest := by
  rintro rfl
  have hstart : ∀ digits : List UInt8, (∀ c ∈ digits, isDigit c = true) → digits ≠ [] →
      scanNat (digits ++ rest) ≠ none := by
    intro digits hdigits hne hnone
    cases digits with
    | nil => exact hne rfl
    | cons c digits =>
        have hstops := scan_nat_eq_none.mp hnone c rfl
        rw [hdigits c List.mem_cons_self] at hstops
        cases hstops
  rw [scanInt, Option.map_eq_none_iff] at h
  cases hliteral with
  | unsigned hdigits hne =>
      rw [take_sign_digits hdigits hne] at h
      exact hstart _ hdigits hne h
  | plus hdigits hne => exact hstart _ hdigits hne h
  | minus hdigits hne => exact hstart _ hdigits hne h

end Decimal
