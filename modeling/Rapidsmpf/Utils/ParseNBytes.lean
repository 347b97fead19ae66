import Mathlib
import Rapidsmpf.Lib.NearestEven
import Rapidsmpf.Utils.Stoi

/-!
# Byte counts in configuration strings

`parse_nbytes` and `parse_nbytes_unsigned` of `utils/string.cpp`, with the number of the text and
its product with the unit as exact rationals. `std::llround` is a parameter: it is known only where
the rounded value is a `long long`. Its result is one, so that the check of the range behind it
never fails; `parse_nbytes_iff` says for which texts the result is right all the same.
-/

namespace Rapidsmpf.Utils

open Config Decimal

/-! ## The code -/

/-- A letter of the ASCII code. -/
def isAlpha (c : UInt8) : Bool := (65 ≤ c && c ≤ 90) || (97 ≤ c && c ≤ 122)

/-- `std::toupper`, of the C locale. -/
def upper (c : UInt8) : UInt8 := if 97 ≤ c ∧ c ≤ 122 then c - 32 else c

/-- `to_upper`. -/
def toUpper (text : Bytes) : Bytes := text.map upper

/-- What group 1 of the regular expression has matched: a sign, digits in front of and behind the
point, and an exponent. -/
structure Number where
  negative : Bool
  whole : Bytes
  frac : Bytes
  exponent : Int
deriving DecidableEq

/-- `[eE][+-]?\d+`. -/
def scanExponent : Bytes → Option (Int × Bytes)
  | [] => none
  | c :: rest => if c = 101 ∨ c = 69 then scanInt rest else none

/-- `\.\d*`, or nothing. -/
def scanFraction : Bytes → Bytes × Bytes
  | [] => ([], [])
  | c :: rest =>
      if c = 46 then (rest.takeWhile isDigit, rest.dropWhile isDigit) else ([], c :: rest)

/-- Group 1: `[+-]?(?:\d+(?:\.\d*)?|\.\d+)(?:[eE][+-]?\d+)?`. -/
def scanNumber (text : Bytes) : Option (Number × Bytes) :=
  let (negative, text) := takeSign text
  let whole := text.takeWhile isDigit
  let (frac, rest) := scanFraction (text.dropWhile isDigit)
  if whole.isEmpty && frac.isEmpty then none
  else
    match scanExponent rest with
    | some (exponent, rest) => some (⟨negative, whole, frac, exponent⟩, rest)
    | none => some (⟨negative, whole, frac, 0⟩, rest)

/-- `std::regex_match` with the regular expression of `parse_nbytes`, and its two groups. -/
def matchNbytes (text : Bytes) : Option (Number × Option Bytes) := do
  let (number, rest) ← scanNumber (text.dropWhile isSpace)
  let rest := rest.dropWhile isSpace
  let unit := rest.takeWhile isAlpha
  if ((rest.dropWhile isAlpha).dropWhile isSpace).isEmpty then
    some (number, if unit.isEmpty then none else some unit)
  else none

/-- `std::stod`, exactly. -/
def Number.toRat (n : Number) : ℚ :=
  (if n.negative then -1 else 1) * value (n.whole ++ n.frac) *
    (10 : ℚ) ^ (n.exponent - n.frac.length)

/-- `prefixes`. -/
def prefixes : Bytes := literal "KMGTPEZY"

/-- The multiplier of a unit in upper case: `B`, or `^([KMGTPEZY])(I)?B$`. -/
def multiplier (unit : Bytes) : Option Nat :=
  if unit = [66] then some 1
  else
    match unit with
    | [letter, 66] => (prefixes.idxOf? letter).map fun pos => 1000 ^ (pos + 1)
    | [letter, 73, 66] => (prefixes.idxOf? letter).map fun pos => 1024 ^ (pos + 1)
    | _ => none

/-- Rounding to the nearest integer, halves away from zero. -/
def roundHalfAway (x : ℚ) : Int := if 0 ≤ x then ⌊x + 1 / 2⌋ else -⌊-x + 1 / 2⌋

/-- The values of a 64-bit signed integer. -/
def IsInt64 (n : Int) : Prop := -2 ^ 63 ≤ n ∧ n < 2 ^ 63

instance : DecidablePred IsInt64 := fun n => inferInstanceAs (Decidable (-2 ^ 63 ≤ n ∧ n < 2 ^ 63))

/-- `std::llround`: any `long long`, if the rounded value is none. -/
structure LLRound where
  toFun : ℚ → Int
  isInt64 : ∀ x, IsInt64 (toFun x)
  eq_round : ∀ x, IsInt64 (roundHalfAway x) → toFun x = roundHalfAway x

/-- The `std::llround` of x86, with the integer indefinite value for what is out of range. -/
def LLRound.indefinite : LLRound where
  toFun x := if IsInt64 (roundHalfAway x) then roundHalfAway x else -2 ^ 63
  isInt64 x := by
    split
    · assumption
    · decide
  eq_round x h := if_pos h

/-- The conversion of an integer to `double`. -/
def toDouble (n : Int) : Int := n.sign * NearestEven.round 53 n.natAbs

/-- The exceptions, with their texts, and undefined behaviour. -/
inductive NbytesError where
  | invalidArgument (what : Bytes)
  | outOfRange (what : Bytes)
  | undefined
deriving DecidableEq

/-- A text in quotes behind a message. -/
def quoted (message : String) (text : Bytes) : Bytes := literal message ++ text ++ literal "'"

/-- `parse_nbytes`. An exact number is in range and a rational finite. -/
def parseNbytes (llround : LLRound) (text : Bytes) : Except NbytesError Int := do
  let (number, unit) ←
    match matchNbytes text with
    | some groups => pure groups
    | none => throw (.invalidArgument (quoted "invalid format: '" text))
  let multiplier ←
    match unit with
    | none => pure 1
    | some unit =>
        match multiplier (toUpper unit) with
        | some multiplier => pure multiplier
        | none =>
            throw (.invalidArgument (quoted "unknown unit '" (toUpper unit) ++
              quoted " in '" text))
  let nbytes := number.toRat * multiplier
  let rounded := toDouble (llround.toFun nbytes)
  if rounded < toDouble (-2 ^ 63) ∨ rounded > toDouble (2 ^ 63 - 1) then
    throw (.outOfRange (quoted "result out of range: '" text))
  -- a conversion to an integer type that does not have the value
  if IsInt64 rounded then pure rounded else throw .undefined

/-- `parse_nbytes_unsigned`. -/
def parseNbytesUnsigned (llround : LLRound) (text : Bytes) : Except NbytesError Nat := do
  let value ← parseNbytes llround text
  if value < 0 then
    throw (.invalidArgument (quoted "negative value not allowed: '" text))
  pure value.toNat

/-! ## The accepted texts -/

/-- Digits with or without a point, and the number they denote. -/
inductive Mantissa : Bytes → ℚ → Prop where
  | whole {digits : Bytes} (h : ∀ c ∈ digits, isDigit c = true) (hne : digits ≠ []) :
      Mantissa digits (value digits)
  | point {whole frac : Bytes} (hwhole : ∀ c ∈ whole, isDigit c = true)
      (hfrac : ∀ c ∈ frac, isDigit c = true) (hne : whole ≠ [] ∨ frac ≠ []) :
      Mantissa (whole ++ 46 :: frac) (value whole + value frac / 10 ^ frac.length)

/-- An exponent, if there is one. -/
inductive Exponent : Bytes → Int → Prop where
  | absent : Exponent [] 0
  | present {c : UInt8} {literal : Bytes} {z : Int} (hc : c = 101 ∨ c = 69)
      (h : Numeral literal z) : Exponent (c :: literal) z

/-- Signed decimal numbers. -/
inductive SignedDecimal : Bytes → ℚ → Prop where
  | unsigned {m e : Bytes} {q : ℚ} {z : Int} (hm : Mantissa m q) (he : Exponent e z) :
      SignedDecimal (m ++ e) (q * 10 ^ z)
  | plus {m e : Bytes} {q : ℚ} {z : Int} (hm : Mantissa m q) (he : Exponent e z) :
      SignedDecimal (43 :: (m ++ e)) (q * 10 ^ z)
  | minus {m e : Bytes} {q : ℚ} {z : Int} (hm : Mantissa m q) (he : Exponent e z) :
      SignedDecimal (45 :: (m ++ e)) (-(q * 10 ^ z))

/-- The units in any case, and their numbers of bytes. -/
inductive UnitText : Bytes → Nat → Prop where
  | bytes {b : UInt8} (hb : upper b = 66) : UnitText [b] 1
  | decimal {letter b : UInt8} {pos : Nat} (hletter : prefixes[pos]? = some (upper letter))
      (hb : upper b = 66) : UnitText [letter, b] (1000 ^ (pos + 1))
  | binary {letter i b : UInt8} {pos : Nat} (hletter : prefixes[pos]? = some (upper letter))
      (hi : upper i = 73) (hb : upper b = 66) : UnitText [letter, i, b] (1024 ^ (pos + 1))

/-- A text of white space. -/
def Blank (text : Bytes) : Prop := ∀ c ∈ text, isSpace c = true

/-- The accepted texts, and the number of bytes that they denote. -/
inductive ByteCount : Bytes → ℚ → Prop where
  | plain {left number right : Bytes} {q : ℚ} (hleft : Blank left)
      (hnumber : SignedDecimal number q) (hright : Blank right) :
      ByteCount (left ++ (number ++ right)) q
  | unit {left number middle unit right : Bytes} {q : ℚ} {m : Nat} (hleft : Blank left)
      (hnumber : SignedDecimal number q) (hmiddle : Blank middle) (hunit : UnitText unit m)
      (hright : Blank right) :
      ByteCount (left ++ (number ++ (middle ++ (unit ++ right)))) (q * m)

/-- The parsers return the rounded value if it is in range, and throw otherwise. -/
def ParsedInRange (llround : LLRound) (text : Bytes) (n : Int) : Prop :=
  (if IsInt64 n then parseNbytes llround text = .ok n
    else ∃ what, parseNbytes llround text = .error (.outOfRange what)) ∧
  ((∃ size, parseNbytesUnsigned llround text = .ok size) ↔ 0 ≤ n ∧ n < 2 ^ 63)

/-! ## Scanning an accepted text -/

section

variable {text rest m e number unit : Bytes} {q : ℚ} {z : Int}

/-- What can follow a number: it does not go on. -/
structure Ends (rest : Bytes) : Prop where
  digit : Stops isDigit rest
  point : Stops (· == 46) rest
  exponent : scanExponent rest = none

theorem scan_fraction_stops (h : Stops (· == 46) rest) : scanFraction rest = ([], rest) := by
  cases rest with
  | nil => rfl
  | cons c rest =>
      have hc : (c == 46) = false := h c rfl
      rw [scanFraction, if_neg (beq_eq_false_iff_ne.mp hc)]

/-- The mantissa is scanned whole. -/
theorem scan_mantissa (h : Mantissa m q) (hdigit : Stops isDigit rest)
    (hpoint : Stops (· == 46) rest) :
    ∃ whole frac, (m ++ rest).takeWhile isDigit = whole ∧
      scanFraction ((m ++ rest).dropWhile isDigit) = (frac, rest) ∧
      (whole ≠ [] ∨ frac ≠ []) ∧ q = value (whole ++ frac) / 10 ^ frac.length := by
  cases h with
  | whole h hne =>
      refine ⟨m, [], takeWhile_word h hdigit, ?_, .inl hne, by simp⟩
      rw [dropWhile_word h hdigit, scan_fraction_stops hpoint]
  | @point whole frac hwhole hfrac hne =>
      have hstops : Stops isDigit (46 :: (frac ++ rest)) := stops_cons rfl
      refine ⟨whole, frac, ?_, ?_, hne, ?_⟩
      · rw [List.append_assoc, List.cons_append, takeWhile_word hwhole hstops]
      · rw [List.append_assoc, List.cons_append, dropWhile_word hwhole hstops, scanFraction,
          if_pos rfl, takeWhile_word hfrac hdigit, dropWhile_word hfrac hdigit]
      · rw [value_append]
        push_cast
        field_simp

theorem scan_exponent_some (h : Exponent e z) (hne : e ≠ []) (hdigit : Stops isDigit rest) :
    scanExponent (e ++ rest) = some (z, rest) := by
  cases h with
  | absent => exact absurd rfl hne
  | present hc hliteral =>
      rw [List.cons_append, scanExponent, if_pos hc]
      exact scan_int_eq_some.mpr ⟨_, hliteral, rfl, hdigit⟩

/-- The mantissa ends where the exponent begins, or where the number ends. -/
theorem exponent_ends (h : Exponent e z) (hrest : Ends rest) :
    Stops isDigit (e ++ rest) ∧ Stops (· == 46) (e ++ rest) := by
  cases h with
  | absent => exact ⟨hrest.digit, hrest.point⟩
  | present hc _ =>
      rcases hc with rfl | rfl
      · exact ⟨stops_cons rfl, stops_cons rfl⟩
      · exact ⟨stops_cons rfl, stops_cons rfl⟩

theorem scan_unsigned (text : Bytes) (negative : Bool) (hm : Mantissa m q) (he : Exponent e z)
    (hrest : Ends rest) (hsign : takeSign text = (negative, m ++ (e ++ rest))) :
    ∃ n, scanNumber text = some (n, rest) ∧
      n.toRat = (if negative then -1 else 1) * (q * 10 ^ z) := by
  obtain ⟨hdigit, hpoint⟩ := exponent_ends he hrest
  obtain ⟨whole, frac, hwhole, hfrac, hne, rfl⟩ := scan_mantissa hm hdigit hpoint
  have hnonempty : (whole.isEmpty && frac.isEmpty) = false := by
    rw [Bool.and_eq_false_iff, List.isEmpty_eq_false_iff, List.isEmpty_eq_false_iff]
    exact hne
  have hvalue : ∀ z : Int, (⟨negative, whole, frac, z⟩ : Number).toRat =
      (if negative then -1 else 1) * ((value (whole ++ frac) : ℚ) / 10 ^ frac.length * 10 ^ z) := by
    intro z
    rw [Number.toRat, zpow_sub₀ (by norm_num), zpow_natCast]
    ring
  rw [scanNumber, hsign]
  dsimp only
  rw [hwhole, hfrac]
  dsimp only
  rw [hnonempty]
  by_cases hnil : e = []
  · cases he with
    | absent => exact ⟨_, by rw [List.nil_append, hrest.exponent]; rfl, hvalue 0⟩
    | present => cases hnil
  · exact ⟨_, by rw [scan_exponent_some he hnil hrest.digit]; rfl, hvalue z⟩

/-- A mantissa begins with a digit or a point. -/
theorem mantissa_head (h : Mantissa m q) :
    ∃ c tail, m = c :: tail ∧ (isDigit c = true ∨ c = 46) := by
  cases h with
  | @whole digits h hne =>
      obtain ⟨c, tail, rfl⟩ := List.exists_cons_of_ne_nil hne
      exact ⟨c, tail, rfl, .inl (h c List.mem_cons_self)⟩
  | @point whole frac hwhole _ _ =>
      cases whole with
      | nil => exact ⟨46, frac, rfl, .inr rfl⟩
      | cons c whole => exact ⟨c, _, rfl, .inl (hwhole c List.mem_cons_self)⟩

theorem take_sign_mantissa (h : Mantissa m q) (rest : Bytes) :
    takeSign (m ++ rest) = (false, m ++ rest) := by
  obtain ⟨c, tail, rfl, hc⟩ := mantissa_head h
  have hne : c ≠ 43 ∧ c ≠ 45 := by
    rcases hc with hdigit | rfl
    · have hrange := is_digit_iff.mp hdigit
      constructor
      · rintro rfl
        exact absurd hrange.1 (by decide)
      · rintro rfl
        exact absurd hrange.1 (by decide)
    · exact ⟨by decide, by decide⟩
  rw [List.cons_append, takeSign, if_neg hne.1, if_neg hne.2]

/-- A signed number is scanned up to where it ends, as the number that it denotes. -/
theorem scan_signed (h : SignedDecimal number q) (hrest : Ends rest) :
    ∃ n, scanNumber (number ++ rest) = some (n, rest) ∧ n.toRat = q := by
  cases h with
  | @unsigned m e q z hm he =>
      obtain ⟨n, hscan, hn⟩ := scan_unsigned (m ++ e ++ rest) false hm he hrest (by
        rw [List.append_assoc, take_sign_mantissa hm])
      exact ⟨n, hscan, hn.trans (one_mul _)⟩
  | @plus m e q z hm he =>
      obtain ⟨n, hscan, hn⟩ := scan_unsigned (43 :: (m ++ e) ++ rest) false hm he hrest (by
        rw [List.cons_append, List.append_assoc]
        rfl)
      exact ⟨n, hscan, hn.trans (one_mul _)⟩
  | @minus m e q z hm he =>
      obtain ⟨n, hscan, hn⟩ := scan_unsigned (45 :: (m ++ e) ++ rest) true hm he hrest (by
        rw [List.cons_append, List.append_assoc]
        rfl)
      exact ⟨n, hscan, hn.trans (neg_one_mul _)⟩

/-- A signed number begins with no white space. -/
theorem signed_stops_space (h : SignedDecimal number q) (rest : Bytes) :
    Stops isSpace (number ++ rest) := by
  have hmantissa : ∀ {m : Bytes} {q : ℚ} (tail : Bytes), Mantissa m q →
      Stops isSpace (m ++ tail) := by
    intro m q tail hm
    obtain ⟨c, rest, rfl, hc⟩ := mantissa_head hm
    refine stops_cons ?_
    rcases hc with hdigit | rfl
    · exact is_space_of_numeral (.unsigned (List.forall_mem_singleton.mpr hdigit)
        (List.cons_ne_nil c [])) List.mem_cons_self
    · rfl
  cases h with
  | unsigned hm _ =>
      rw [List.append_assoc]
      exact hmantissa _ hm
  | plus => exact stops_cons rfl
  | minus => exact stops_cons rfl

/-! ## Units -/

theorem upper_range {c : UInt8} (h : 65 ≤ (upper c).toNat ∧ (upper c).toNat ≤ 90) :
    65 ≤ c.toNat ∧ c.toNat ≤ 90 ∨ 97 ≤ c.toNat ∧ c.toNat ≤ 122 := by
  rw [upper] at h
  split at h
  · next hlower => exact .inr (by simpa [UInt8.le_iff_toNat_le] using hlower)
  · exact .inl h

theorem prefix_range {pos : Nat} {c : UInt8} (h : prefixes[pos]? = some c) :
    65 ≤ c.toNat ∧ c.toNat ≤ 90 := by
  have hall : prefixes.all (fun c => 65 ≤ c.toNat && c.toNat ≤ 90) = true := rfl
  simpa using List.all_eq_true.mp hall c (List.mem_of_getElem? h)

/-- The characters of a unit are letters. -/
theorem unit_letters {n : Nat} (h : UnitText unit n) : ∀ c ∈ unit, isAlpha c = true := by
  have hletter : ∀ c : UInt8, 65 ≤ (upper c).toNat ∧ (upper c).toNat ≤ 90 → isAlpha c = true := by
    intro c hc
    simpa [isAlpha, UInt8.le_iff_toNat_le] using upper_range hc
  have hfixed : ∀ {c d : UInt8}, upper c = d → 65 ≤ d.toNat ∧ d.toNat ≤ 90 → isAlpha c = true := by
    rintro c _ rfl hd
    exact hletter c hd
  cases h with
  | bytes hb => exact List.forall_mem_singleton.mpr (hfixed hb (by decide))
  | decimal hp hb =>
      exact List.forall_mem_cons.mpr ⟨hletter _ (prefix_range hp),
        List.forall_mem_singleton.mpr (hfixed hb (by decide))⟩
  | binary hp hi hb =>
      exact List.forall_mem_cons.mpr ⟨hletter _ (prefix_range hp), List.forall_mem_cons.mpr
        ⟨hfixed hi (by decide), List.forall_mem_singleton.mpr (hfixed hb (by decide))⟩⟩

theorem not_digit_of_alpha {c : UInt8} (h : isAlpha c = true) :
    isDigit c = false ∧ isSpace c = false ∧ (c == 46) = false ∧ c ≠ 43 ∧ c ≠ 45 := by
  have hrange : 65 ≤ c.toNat ∧ c.toNat ≤ 90 ∨ 97 ≤ c.toNat ∧ c.toNat ≤ 122 := by
    simpa [isAlpha, UInt8.le_iff_toNat_le] using h
  have hne : ∀ d : UInt8, d.toNat < 65 → c ≠ d := by
    rintro d hd rfl
    omega
  refine ⟨?_, ?_, beq_eq_false_iff_ne.mpr (hne 46 (by decide)), hne 43 (by decide),
    hne 45 (by decide)⟩
  · rw [← Bool.not_eq_true, is_digit_iff]
    omega
  · simp only [isSpace, Bool.or_eq_false_iff, decide_eq_false_iff_not, Bool.and_eq_false_iff,
      UInt8.le_iff_toNat_le, UInt8.reduceToNat]
    exact ⟨hne 32 (by decide), .inr (by omega)⟩

theorem scan_int_alpha {c : UInt8} (h : isAlpha c = true) (rest : Bytes) :
    scanInt (c :: rest) = none := by
  obtain ⟨hdigit, -, -, hplus, hminus⟩ := not_digit_of_alpha h
  rw [scanInt, takeSign, if_neg hplus, if_neg hminus, scan_nat_eq_none.mpr (stops_cons hdigit)]
  rfl

/-- A unit does not go on with a number in front of it. -/
theorem unit_ends {n : Nat} (h : UnitText unit n) (right : Bytes) : Ends (unit ++ right) := by
  have hletters := unit_letters h
  have hexponent : scanExponent (unit ++ right) = none := by
    cases h with
    | @bytes b hb =>
        rw [List.singleton_append, scanExponent, if_neg]
        rintro (rfl | rfl)
        · cases hb
        · cases hb
    | decimal | binary =>
        rw [List.cons_append, scanExponent]
        split
        · exact scan_int_alpha (hletters _ (List.mem_cons_of_mem _ List.mem_cons_self)) _
        · rfl
  have hhead : ∃ c tail, unit = c :: tail ∧ isAlpha c = true := by
    cases h with
    | bytes | decimal | binary => exact ⟨_, _, rfl, hletters _ List.mem_cons_self⟩
  obtain ⟨c, tail, rfl, hc⟩ := hhead
  obtain ⟨hdigit, -, hpoint, -, -⟩ := not_digit_of_alpha hc
  exact ⟨stops_cons hdigit, stops_cons hpoint, hexponent⟩

/-- White space does not go on with a number in front of it. -/
theorem blank_ends {blank : Bytes} (h : Blank blank) (hrest : Ends rest) :
    Ends (blank ++ rest) := by
  cases blank with
  | nil => exact hrest
  | cons c blank =>
      have hspace : isSpace c = true := h c List.mem_cons_self
      have hne : ∀ d : UInt8, isSpace d = false → c ≠ d := by
        rintro d hd rfl
        rw [hspace] at hd
        cases hd
      refine ⟨stops_cons ?_, stops_cons (beq_eq_false_iff_ne.mpr (hne 46 rfl)), ?_⟩
      · have hstops : Stops isDigit [c] := stops_of_blank (List.forall_mem_singleton.mpr hspace)
        exact hstops c rfl
      · rw [List.cons_append, scanExponent, if_neg]
        exact not_or.mpr ⟨hne 101 rfl, hne 69 rfl⟩

/-- The unit stands for its multiplier. -/
theorem multiplier_of_unit {n : Nat} (h : UnitText unit n) :
    multiplier (toUpper unit) = some n := by
  have hindex : ∀ (pos : Nat) (c : UInt8), prefixes[pos]? = some c →
      prefixes.idxOf? c = some pos := by
    intro pos c hc
    have hlt : pos < 8 := (List.getElem?_eq_some_iff.mp hc).1
    have hall : (List.range 8).all (fun pos =>
        prefixes[pos]?.all fun c => prefixes.idxOf? c == some pos) = true := rfl
    have hpos := List.all_eq_true.mp hall pos (List.mem_range.mpr hlt)
    rw [hc] at hpos
    exact beq_iff_eq.mp hpos
  cases h with
  | bytes hb =>
      rw [toUpper, List.map_singleton, hb]
      rfl
  | decimal hp hb =>
      rw [toUpper, List.map_cons, List.map_singleton, hb, multiplier, if_neg (by simp),
        hindex _ _ hp]
      rfl
  | binary hp hi hb =>
      rw [toUpper, List.map_cons, List.map_cons, List.map_singleton, hi, hb, multiplier,
        if_neg (by simp), hindex _ _ hp]
      rfl

/-! ## The result -/

/-- An accepted text is matched as a number and a unit that make up what it denotes. -/
theorem match_byte_count (h : ByteCount text q) :
    ∃ n unit, matchNbytes text = some (n, unit) ∧
      ∃ k : Nat, (∀ u, unit = some u → multiplier (toUpper u) = some k) ∧ (unit = none → k = 1) ∧
        n.toRat * k = q := by
  have hblank : ∀ {right : Bytes}, Blank right → right.dropWhile isSpace = [] := fun hright =>
    List.dropWhile_eq_nil_iff.mpr hright
  have hnil : Ends [] := ⟨stops_nil, stops_nil, rfl⟩
  cases h with
  | @plain left number right q hleft hnumber hright =>
      have hends := blank_ends hright hnil
      rw [List.append_nil] at hends
      obtain ⟨n, hscan, hn⟩ := scan_signed hnumber hends
      refine ⟨n, none, ?_, 1, nofun, fun _ => rfl, by rw [hn, Nat.cast_one, mul_one]⟩
      rw [matchNbytes, dropWhile_word hleft (signed_stops_space hnumber right), hscan]
      show (if ((((right.dropWhile isSpace).dropWhile isAlpha).dropWhile isSpace).isEmpty) = true
        then _ else _) = _
      rw [hblank hright]
      rfl
  | @unit left number middle unit right q m hleft hnumber hmiddle hunit hright =>
      obtain ⟨n, hscan, hn⟩ := scan_signed hnumber (blank_ends hmiddle (unit_ends hunit right))
      have hletters := unit_letters hunit
      have hne : unit ≠ [] := by
        cases hunit with
        | bytes | decimal | binary => exact List.cons_ne_nil _ _
      have hspace : Stops isSpace (unit ++ right) := by
        obtain ⟨c, tail, rfl⟩ := List.exists_cons_of_ne_nil hne
        exact stops_cons (not_digit_of_alpha (hletters c List.mem_cons_self)).2.1
      have halpha : Stops isAlpha right := by
        intro c hc
        by_contra hletter
        rw [Bool.not_eq_false] at hletter
        have hnot := (not_digit_of_alpha hletter).2.1
        rw [hright c (List.mem_of_mem_head? hc)] at hnot
        cases hnot
      refine ⟨n, some unit, ?_, m, ?_, nofun, by rw [hn]⟩
      · rw [matchNbytes, dropWhile_word hleft (signed_stops_space hnumber _), hscan]
        show (if ((((middle ++ (unit ++ right)).dropWhile isSpace).dropWhile isAlpha).dropWhile
          isSpace).isEmpty = true then _ else _) = _
        rw [dropWhile_word hmiddle hspace, dropWhile_word hletters halpha,
          takeWhile_word hletters halpha, hblank hright]
        simp [hne]
      · rintro u hu
        obtain rfl := Option.some.inj hu
        exact multiplier_of_unit hunit

theorem to_double_eq_iff {n : Int} :
    toDouble n = n ↔ NearestEven.Representable 53 n.natAbs := by
  rw [← NearestEven.round_eq_iff, toDouble]
  constructor
  · intro h
    by_cases hn : n = 0
    · rw [hn]
      rfl
    · have habs := congrArg Int.natAbs h
      rwa [Int.natAbs_mul, Int.natAbs_sign_of_ne_zero hn, one_mul, Int.natAbs_natCast] at habs
  · intro h
    rw [h, Int.sign_mul_natAbs]

/-- No `long long` is out of range as a `double`. -/
theorem to_double_in_range {n : Int} (h : IsInt64 n) :
    ¬ (toDouble n < toDouble (-2 ^ 63) ∨ toDouble n > toDouble (2 ^ 63 - 1)) := by
  obtain ⟨hlow, hhigh⟩ := h
  have hbottom : toDouble (-2 ^ 63) = -2 ^ 63 := rfl
  have htop : toDouble (2 ^ 63 - 1) = 2 ^ 63 := rfl
  have hround : NearestEven.round 53 n.natAbs ≤ 2 ^ 63 :=
    NearestEven.round_le_two_pow (by decide) (by omega)
  rw [hbottom, htop, toDouble]
  rcases lt_trichotomy n 0 with hneg | rfl | hpos
  · rw [Int.sign_eq_neg_one_of_neg hneg]
    omega
  · rw [Int.sign_zero]
    omega
  · rw [Int.sign_eq_one_of_pos hpos]
    omega

/-- What the parser does with an accepted text: it never finds the value out of range. -/
theorem parse_byte_count (llround : LLRound) (h : ByteCount text q) :
    parseNbytes llround text =
      if IsInt64 (toDouble (llround.toFun q)) then .ok (toDouble (llround.toFun q))
      else .error .undefined := by
  obtain ⟨n, unit, hmatch, k, hunit, hnone, rfl⟩ := match_byte_count h
  have hrange := to_double_in_range (llround.isInt64 (n.toRat * k))
  rw [parseNbytes, hmatch]
  cases unit with
  | none =>
      obtain rfl := hnone rfl
      show (if _ then _ else _) = _
      rw [if_neg hrange]
      rfl
  | some u =>
      simp only [pure_bind]
      rw [hunit u rfl]
      show (if _ then _ else _) = _
      rw [if_neg hrange]
      rfl

/-- An accepted text is parsed as it should be exactly when the rounded value is in range and a
`double`. -/
theorem parse_nbytes_iff (llround : LLRound) (h : ByteCount text q) :
    ParsedInRange llround text (roundHalfAway q) ↔
      IsInt64 (roundHalfAway q) ∧ NearestEven.Representable 53 (roundHalfAway q).natAbs := by
  have hparse := parse_byte_count llround h
  rw [← to_double_eq_iff]
  constructor
  · rintro ⟨hresult, -⟩
    split at hresult
    · next hrange =>
        rw [hparse, llround.eq_round q hrange] at hresult
        refine ⟨hrange, ?_⟩
        split at hresult
        · exact Except.ok.inj hresult
        · cases hresult
    · obtain ⟨what, herror⟩ := hresult
      rw [hparse] at herror
      split at herror
      · cases herror
      · cases herror
  · rintro ⟨hrange, hexact⟩
    rw [llround.eq_round q hrange, hexact, if_pos hrange] at hparse
    rw [ParsedInRange, if_pos hrange]
    refine ⟨hparse, ?_⟩
    have hunsigned : parseNbytesUnsigned llround text =
        if roundHalfAway q < 0 then
          .error (.invalidArgument (quoted "negative value not allowed: '" text))
        else .ok (roundHalfAway q).toNat := by
      rw [parseNbytesUnsigned, hparse]
      rfl
    obtain ⟨-, hhigh⟩ := hrange
    by_cases hneg : roundHalfAway q < 0
    · rw [if_pos hneg] at hunsigned
      rw [hunsigned]
      exact ⟨fun ⟨_, herror⟩ => (nomatch herror), fun h => absurd h.1 (not_le.mpr hneg)⟩
    · rw [if_neg hneg] at hunsigned
      exact ⟨fun _ => ⟨not_lt.mp hneg, hhigh⟩, fun _ => ⟨_, hunsigned⟩⟩

/-- A size with a decimal point, white space and a unit. -/
theorem parse_nbytes_iff_kibibytes :
    ParsedInRange LLRound.indefinite (literal "-1.5 KiB") (roundHalfAway (-1536)) := by
  have hmantissa : Mantissa [49, 46, 53] (3 / 2) := by
    have hpoint : Mantissa ([49] ++ 46 :: [53]) _ :=
      .point (List.forall_mem_singleton.mpr rfl) (List.forall_mem_singleton.mpr rfl)
        (.inl (List.cons_ne_nil 49 []))
    have hvalue : (value [49] + value [53] / 10 ^ [(53 : UInt8)].length : ℚ) = 3 / 2 := by
      rw [show value [49] = 1 from rfl, show value [53] = 5 from rfl]
      norm_num
    rwa [hvalue] at hpoint
  have hunit : UnitText [75, 105, 66] (1024 ^ (0 + 1)) := .binary rfl rfl rfl
  have hcount : ByteCount (literal "-1.5 KiB") (-1536) := by
    have hvalue : (-(3 / 2 * 10 ^ (0 : Int)) * (1024 ^ (0 + 1) : Nat) : ℚ) = -1536 := by norm_num
    rw [← hvalue]
    show ByteCount ([] ++ ([45, 49, 46, 53] ++ ([32] ++ ([75, 105, 66] ++ [])))) _
    exact .unit (List.forall_mem_nil _) (.minus hmantissa .absent)
      (List.forall_mem_singleton.mpr rfl) hunit (List.forall_mem_nil _)
  have hround : roundHalfAway (-1536) = -1536 := by norm_num [roundHalfAway]
  refine (parse_nbytes_iff LLRound.indefinite hcount).mpr ?_
  rw [hround]
  exact ⟨by decide, 1536, 0, by decide, rfl⟩

/-- A text whose size is no `long long` is accepted. -/
theorem sixteen_exbibytes_accepted :
    ByteCount (literal "16EiB") (2 ^ 64) ∧
      parseNbytes LLRound.indefinite (literal "16EiB") = .ok (-2 ^ 63) ∧
      ¬ ParsedInRange LLRound.indefinite (literal "16EiB") (roundHalfAway (2 ^ 64)) := by
  have hmantissa : Mantissa [49, 54] 16 := by
    have hwhole : Mantissa [49, 54] _ := .whole (List.all_eq_true.mp rfl) (List.cons_ne_nil 49 [54])
    exact hwhole
  have hunit : UnitText [69, 105, 66] (1024 ^ (5 + 1)) := .binary rfl rfl rfl
  have hcount : ByteCount (literal "16EiB") (2 ^ 64) := by
    have hvalue : (16 * 10 ^ (0 : Int) * (1024 ^ (5 + 1) : Nat) : ℚ) = 2 ^ 64 := by norm_num
    rw [← hvalue]
    show ByteCount ([] ++ ([49, 54] ++ ([] ++ ([69, 105, 66] ++ [])))) _
    exact .unit (List.forall_mem_nil _) (.unsigned hmantissa .absent) (List.forall_mem_nil _) hunit
      (List.forall_mem_nil _)
  have hround : roundHalfAway (2 ^ 64) = 2 ^ 64 := by norm_num [roundHalfAway]
  have hrange : ¬ IsInt64 (roundHalfAway (2 ^ 64)) := by
    rw [hround]
    decide
  have hparse : parseNbytes LLRound.indefinite (literal "16EiB") = .ok (-2 ^ 63) := by
    rw [parse_byte_count LLRound.indefinite hcount, LLRound.indefinite]
    simp only [if_neg hrange]
    rfl
  refine ⟨hcount, hparse, fun h => ?_⟩
  obtain ⟨hresult, -⟩ := h
  rw [if_neg hrange] at hresult
  obtain ⟨what, herror⟩ := hresult
  rw [hparse] at herror
  cases herror

end

end Rapidsmpf.Utils
