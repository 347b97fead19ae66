import Mathlib
import Rapidsmpf.Utils.StringList
import Rapidsmpf.Utils.Stoi

/-!
# Booleans in strings

`parse_string<bool>` tries `std::stoi`, and then the words for true and false. Both of its parts are
lenient: `std::stoi` ignores what follows the number, `trim` what follows the first word. An integer
that is no `int` lets an exception of another kind through. `parse_bool_iff` says for which strings
none of this matters.
-/

namespace Rapidsmpf.Utils

open Config Decimal

/-! ## The code -/

/-- The exceptions of `parse_string<bool>`. -/
inductive ParseError where
  | invalidArgument (what : Bytes)
  | outOfRange
deriving DecidableEq

/-- The words for true. -/
def trueWords : List Bytes := ["true", "on", "yes"].map literal

/-- The words for false. -/
def falseWords : List Bytes := ["false", "off", "no"].map literal

/-- `parse_string<bool>`. -/
def parseBool (text : Bytes) : Except ParseError Bool :=
  match stoi text with
  | .ok n => .ok (n ≠ 0)
  | .error .outOfRange => .error .outOfRange
  | .error .invalidArgument =>
      let str := toLower (trim text)
      if str ∈ trueWords then .ok true
      else if str ∈ falseWords then .ok false
      else .error (.invalidArgument (literal "cannot parse \"" ++ text ++ literal "\""))

/-! ## The language -/

/-- The strings for a boolean: integer literals and words, with white space around them. -/
inductive Denotes (text : Bytes) : Bool → Prop where
  | integer {n : Int} (h : Numeral (strip text) n) : Denotes text (n ≠ 0)
  | yes (h : toLower (strip text) ∈ trueWords) : Denotes text true
  | no (h : toLower (strip text) ∈ falseWords) : Denotes text false

/-- The string is parsed as the language has it, and refused when it is not in the language. -/
structure ParsedAsDenoted (text : Bytes) : Prop where
  returns : ∀ b, parseBool text = .ok b ↔ Denotes text b
  throws : (∀ b, ¬ Denotes text b) → ∃ what, parseBool text = .error (.invalidArgument what)

/-- What begins like an integer is one, of type `int`; what begins with one of the words has no
other. -/
structure Unmixed (text : Bytes) : Prop where
  integer : ∀ digits n rest, Numeral digits n → strip text = digits ++ rest →
    ∃ m, Numeral (strip text) m ∧ IsInt m
  word : toLower (trim text) ∈ trueWords ++ falseWords → Solid text

section

variable {text : Bytes}

/-- Words begin with a letter. -/
theorem word_head : ∀ word ∈ trueWords ++ falseWords, ∃ c ∈ word.head?, 97 ≤ c.toNat := by decide

theorem numeral_head {digits : Bytes} {n : Int} (h : Numeral digits n) :
    ∃ c rest, digits = c :: rest ∧ c.toNat < 58 := by
  have hdigit : ∀ ds : Bytes, (∀ c ∈ ds, isDigit c = true) → ds ≠ [] →
      ∃ c rest, ds = c :: rest ∧ c.toNat < 58 := by
    intro ds hds hne
    cases ds with
    | nil => exact absurd rfl hne
    | cons c ds =>
        have hc := is_digit_iff.mp (hds c List.mem_cons_self)
        exact ⟨c, ds, rfl, by omega⟩
  cases h with
  | unsigned h hne => exact hdigit _ h hne
  | plus => exact ⟨_, _, rfl, by decide⟩
  | minus => exact ⟨_, _, rfl, by decide⟩

/-- What begins like an integer is none of the words. -/
theorem not_word_of_numeral {digits rest : Bytes} {n : Int} (h : Numeral digits n) :
    toLower (digits ++ rest) ∉ trueWords ++ falseWords := by
  intro hmem
  obtain ⟨c, digits, rfl, hc⟩ := numeral_head h
  obtain ⟨d, hd, hletter⟩ := word_head _ hmem
  obtain rfl : lower c = d := Option.some.inj hd
  rw [lower, if_neg] at hletter
  · omega
  · rintro ⟨hupper, -⟩
    rw [UInt8.le_iff_toNat_le] at hupper
    have hlimit : (65 : UInt8).toNat = 65 := rfl
    omega

/-- `std::stoi` finds what a scan of the stripped string does. -/
theorem stoi_eq (text : Bytes) : stoi text =
    match scanInt (strip text) with
    | none => .error .invalidArgument
    | some (n, _) => if IsInt n then .ok n else .error .outOfRange := by
  obtain ⟨left, right, htext, hleft, hright, -⟩ := exists_strip text
  have hdrop : text.dropWhile isSpace = strip text ++ (text.dropWhile isSpace).rtakeWhile isSpace :=
    List.rdropWhile_append_rtakeWhile.symm
  have hblank : ∀ c ∈ (text.dropWhile isSpace).rtakeWhile isSpace, isSpace c = true :=
    fun c hc => List.mem_takeWhile_imp (List.mem_reverse.mp hc)
  rw [stoi, hdrop, scan_int_append hblank]
  cases scanInt (strip text) <;> rfl

/-- The first word of a string that begins like an integer does, too. -/
theorem trim_of_numeral {digits rest : Bytes} {n : Int} (h : Numeral digits n)
    (htext : strip text = digits ++ rest) : ∃ more, trim text = digits ++ more := by
  obtain ⟨left, right, -, -, -, htrim⟩ := exists_strip text
  rw [htext, List.append_assoc, List.takeWhile_append_of_pos
    fun c hc => by rw [is_space_of_numeral h hc, Bool.not_false]] at htrim
  exact ⟨_, htrim⟩

/-- Words are solid. -/
theorem solid_of_word (h : toLower (strip text) ∈ trueWords ++ falseWords) : Solid text := by
  have hwords : (trueWords ++ falseWords).all (fun word => word.all fun c => !isSpace c) = true :=
    rfl
  intro c hc
  have hword := List.all_eq_true.mp hwords _ h
  have hchar := List.all_eq_true.mp hword _ (List.mem_map_of_mem hc)
  rwa [is_space_lower, Bool.not_eq_true'] at hchar

theorem words_disjoint : ∀ word ∈ falseWords, word ∉ trueWords := by decide

theorem parsed_of_ok {b : Bool} (hok : parseBool text = .ok b) (h : Denotes text b)
    (hunique : ∀ b', Denotes text b' → b' = b) : ParsedAsDenoted text where
  returns := by
    intro b'
    rw [hok, Except.ok.injEq]
    constructor
    · rintro rfl
      exact h
    · exact fun hb' => (hunique b' hb').symm
  throws := fun hnone => absurd h (hnone b)

/-- An integer in the string decides how it is parsed. -/
theorem parsed_integer_iff {digits rest : Bytes} {n : Int} (h : Numeral digits n)
    (htext : strip text = digits ++ rest) (hstops : Stops isDigit rest) :
    ParsedAsDenoted text ↔ rest = [] ∧ IsInt n := by
  have hstoi : stoi text = if IsInt n then .ok n else .error .outOfRange := by
    rw [stoi_eq, scan_int_eq_some.mpr ⟨digits, h, htext, hstops⟩]
  have hword : toLower (strip text) ∉ trueWords ++ falseWords := by
    rw [htext]
    exact not_word_of_numeral h
  rw [List.mem_append, not_or] at hword
  -- a literal that is the whole of the string is the one that is scanned
  have hwhole : ∀ {m}, Numeral (strip text) m → rest = [] ∧ m = n := by
    intro m hm
    have hscan := scan_int_eq_some.mpr ⟨_, hm, (List.append_nil _).symm, stops_nil⟩
    rw [scan_int_eq_some.mpr ⟨digits, h, htext, hstops⟩] at hscan
    simp only [Option.some.injEq, Prod.mk.injEq] at hscan
    exact ⟨hscan.2, hscan.1.symm⟩
  have hdenotes : ∀ b, Denotes text b → rest = [] ∧ b = decide (n ≠ 0) := by
    intro b hb
    cases hb with
    | integer hm =>
        obtain ⟨hrest, rfl⟩ := hwhole hm
        exact ⟨hrest, rfl⟩
    | yes hyes => exact absurd hyes hword.1
    | no hno => exact absurd hno hword.2
  constructor
  · intro hparsed
    have hint : IsInt n := by
      by_contra hint
      have hthrow : parseBool text = .error .outOfRange := by rw [parseBool, hstoi, if_neg hint]
      by_cases hrest : rest = []
      · subst hrest
        rw [List.append_nil] at htext
        have hok := (hparsed.returns (decide (n ≠ 0))).mpr (.integer (htext ▸ h))
        rw [hthrow] at hok
        cases hok
      · obtain ⟨what, hwhat⟩ := hparsed.throws fun b hb => hrest (hdenotes b hb).1
        rw [hthrow] at hwhat
        cases hwhat
    have hok : parseBool text = .ok (decide (n ≠ 0)) := by rw [parseBool, hstoi, if_pos hint]
    exact ⟨(hdenotes _ ((hparsed.returns _).mp hok)).1, hint⟩
  · rintro ⟨rfl, hint⟩
    rw [List.append_nil] at htext
    have hok : parseBool text = .ok (decide (n ≠ 0)) := by rw [parseBool, hstoi, if_pos hint]
    exact parsed_of_ok hok (.integer (htext ▸ h)) fun b hb => (hdenotes b hb).2

/-- Without an integer at its beginning, the first word of the string decides. -/
theorem parsed_word_iff (hscan : scanInt (strip text) = none) :
    ParsedAsDenoted text ↔ (toLower (trim text) ∈ trueWords ++ falseWords → Solid text) := by
  have hstoi : stoi text = .error .invalidArgument := by rw [stoi_eq, hscan]
  have hinteger : ∀ n, ¬ Numeral (strip text) n :=
    fun n hn => scan_int_eq_none hscan hn (List.append_nil _).symm
  have hok : ∀ b, parseBool text = .ok b ↔
      toLower (trim text) ∈ trueWords ∧ b = true ∨
        toLower (trim text) ∈ falseWords ∧ b = false := by
    intro b
    rw [parseBool, hstoi]
    dsimp only
    split
    · next hyes =>
        have hno : toLower (trim text) ∉ falseWords := fun hno => words_disjoint _ hno hyes
        simp [hyes, hno, eq_comm]
    · next hyes =>
        split
        · next hno => simp [hyes, hno, eq_comm]
        · next hno => simp [hyes, hno]
  have hdenotes : ∀ b, Denotes text b ↔ toLower (strip text) ∈ trueWords ∧ b = true ∨
      toLower (strip text) ∈ falseWords ∧ b = false := by
    intro b
    constructor
    · intro hb
      cases hb with
      | integer hm => exact absurd hm (hinteger _)
      | yes hyes => exact .inl ⟨hyes, rfl⟩
      | no hno => exact .inr ⟨hno, rfl⟩
    · rintro (⟨hyes, rfl⟩ | ⟨hno, rfl⟩)
      · exact .yes hyes
      · exact .no hno
  constructor
  · intro hparsed hword
    have hreturns : ∃ b, parseBool text = .ok b := by
      rcases List.mem_append.mp hword with hyes | hno
      · exact ⟨true, (hok true).mpr (.inl ⟨hyes, rfl⟩)⟩
      · exact ⟨false, (hok false).mpr (.inr ⟨hno, rfl⟩)⟩
    obtain ⟨b, hb⟩ := hreturns
    rcases (hdenotes b).mp ((hparsed.returns b).mp hb) with ⟨hyes, -⟩ | ⟨hno, -⟩
    · exact solid_of_word (List.mem_append_left _ hyes)
    · exact solid_of_word (List.mem_append_right _ hno)
  · intro hsolid
    by_cases hword : Solid text
    · -- the first word is the whole of the string
      have hsame := (solid_iff_trim text).mp hword
      refine ⟨fun b => by rw [hok, hdenotes, hsame], fun hnone => ?_⟩
      have hyes : toLower (trim text) ∉ trueWords :=
        fun hyes => hnone true (.yes (hsame ▸ hyes))
      have hno : toLower (trim text) ∉ falseWords :=
        fun hno => hnone false (.no (hsame ▸ hno))
      rw [parseBool, hstoi]
      exact ⟨_, (if_neg hyes).trans (if_neg hno)⟩
    · have hneither := mt hsolid hword
      rw [List.mem_append, not_or] at hneither
      have hnone : ∀ b, ¬ Denotes text b := by
        intro b hb
        rcases (hdenotes b).mp hb with ⟨hyes, -⟩ | ⟨hno, -⟩
        · exact hword (solid_of_word (List.mem_append_left _ hyes))
        · exact hword (solid_of_word (List.mem_append_right _ hno))
      have hthrow : ∃ what, parseBool text = .error (.invalidArgument what) := by
        rw [parseBool, hstoi]
        exact ⟨_, (if_neg hneither.1).trans (if_neg hneither.2)⟩
      obtain ⟨what, hwhat⟩ := hthrow
      refine ⟨fun b => ?_, fun _ => ⟨what, hwhat⟩⟩
      rw [hwhat]
      exact ⟨fun h => (nomatch h), fun hb => absurd hb (hnone b)⟩

/-- A string is parsed as the language of booleans has it exactly when nothing follows its number
or its word, and the number is an `int`. -/
theorem parse_bool_iff (text : Bytes) : ParsedAsDenoted text ↔ Unmixed text := by
  cases hscan : scanInt (strip text) with
  | some r =>
      obtain ⟨n, rest⟩ := r
      obtain ⟨digits, h, htext, hstops⟩ := scan_int_eq_some.mp hscan
      rw [parsed_integer_iff h htext hstops]
      constructor
      · rintro ⟨rfl, hint⟩
        rw [List.append_nil] at htext
        refine ⟨fun _ _ _ _ _ => ⟨n, htext ▸ h, hint⟩, fun hword => absurd hword ?_⟩
        obtain ⟨more, hmore⟩ := trim_of_numeral h (htext.trans (List.append_nil _).symm)
        rw [hmore]
        exact not_word_of_numeral h
      · intro hunmixed
        obtain ⟨m, hm, hint⟩ := hunmixed.integer digits n rest h htext
        have hwhole := scan_int_eq_some.mpr ⟨_, hm, (List.append_nil _).symm, stops_nil⟩
        rw [hscan] at hwhole
        simp only [Option.some.injEq, Prod.mk.injEq] at hwhole
        exact ⟨hwhole.2, hwhole.1 ▸ hint⟩
  | none =>
      rw [parsed_word_iff hscan]
      constructor
      · intro hword
        exact ⟨fun _ _ _ hn htext => absurd htext (scan_int_eq_none hscan hn), hword⟩
      · exact fun hunmixed => hunmixed.word

end

/-- A number with a word behind it is taken for the number, a word with another behind it for the
first; and a number that is no `int` is refused as out of range. -/
theorem first_part_taken :
    ¬ ParsedAsDenoted (literal "1 of 2") ∧ ¬ ParsedAsDenoted (literal "yes sir") ∧
      ¬ ParsedAsDenoted (literal "2147483648") := by
  refine ⟨?_, ?_, ?_⟩
  · have hnumeral : Numeral [49] (value [49]) :=
      .unsigned (List.forall_mem_singleton.mpr rfl) (List.cons_ne_nil _ _)
    have htext : strip (literal "1 of 2") = [49] ++ literal " of 2" := rfl
    rw [parsed_integer_iff hnumeral htext (stops_cons rfl)]
    exact fun h => List.cons_ne_nil _ _ h.1
  · have hscan : scanInt (strip (literal "yes sir")) = none := rfl
    have hword : toLower (trim (literal "yes sir")) ∈ trueWords ++ falseWords := by decide
    rw [parsed_word_iff hscan]
    exact fun h => absurd (h hword 32 (by decide)) (by decide)
  · have hnumeral : Numeral (literal "2147483648") (value (literal "2147483648")) :=
      .unsigned (List.all_eq_true.mp rfl) (List.cons_ne_nil _ _)
    have htext : strip (literal "2147483648") = literal "2147483648" ++ [] := rfl
    rw [parsed_integer_iff hnumeral htext stops_nil]
    exact fun h => absurd h.2 (by decide)

end Rapidsmpf.Utils
