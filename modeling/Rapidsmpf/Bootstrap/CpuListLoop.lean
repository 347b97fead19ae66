import Mathlib
import Rapidsmpf.Bootstrap.CpuList

/-!
# The loops over CPU lists

`parse_cpu_list` and `parse_cpu_list_to_mask` as a machine that takes the steps of their loops one
at a time, with the counter of the inner one an `int`. The parsers differ in what they do with a
core. `list_eq_some` and `mask_eq_some` connect the machine with the functions of `CpuList`, and
`loops_return_iff` says for which strings the machines return.

The counter goes one past the end of a range before the loop ends, so a range may not end with
the largest `int`.
-/

namespace Rapidsmpf.Bootstrap

open Fallible StateTransition Utils

universe u

/-! ## The code -/

/-- What a token holds. -/
inductive TokenRead where
  | core (n : Int)
  | range (first last : Int)

/-- The calls of `std::stoi` on a token. -/
def readToken (token : Bytes) : Except EntryError TokenRead :=
  match token.findIdx? (· == 45) with
  | some dashPos => do
      let first ← stoiOrThrow (token.take dashPos)
      let last ← stoiOrThrow (token.drop (dashPos + 1))
      pure (.range first last)
  | none => do
      let core ← stoiOrThrow token
      pure (.core core)

/-- The program point with the live variables: the call of `std::getline`, the test `i <= end` with
the body behind it, `++i`, and the point behind a `return`. -/
inductive Control where
  | line (tokens : List Bytes)
  | test (i last : Int) (tokens : List Bytes)
  | increment (i last : Int) (tokens : List Bytes)
  | returned (success : Bool)

section

variable {σ : Type u} (push : σ → Int → σ)

/-- One step. An increment that leaves the `int`s has no successor. -/
def next (state : σ × Control) : Option (σ × Control) :=
  let (s, control) := state
  match control with
  | .line [] => some (s, .returned true)
  | .line (token :: tokens) =>
      match readToken token with
      | .ok (.core n) => some (push s n, .line tokens)
      | .ok (.range first last) => some (s, .test first last tokens)
      | .error _ => some (s, .returned false)
  | .test i last tokens =>
      if i ≤ last then some (push s i, .increment i last tokens) else some (s, .line tokens)
  | .increment i last tokens => if IsInt (i + 1) then some (s, .test (i + 1) last tokens) else none
  | .returned _ => none

/-- The loops return, with every increment on the way defined. -/
def Returns (start : σ × Control) : Prop :=
  ∃ s success, Reaches (next push) start (s, .returned success)

end

/-- `cores.push_back`. -/
def pushBack (cores : List Int) (core : Int) : List Int := cores ++ [core]

/-- The beginning of `parse_cpu_list`. -/
def listStart (cpulist : Bytes) : List Int × Control :=
  if cpulist.isEmpty then ([], .returned true) else ([], .line (getlines cpulist))

/-- The beginning of `parse_cpu_list_to_mask`. -/
def maskStart (cpulist : Bytes) : Finset Nat × Control :=
  if cpulist.isEmpty then (∅, .returned false) else (∅, .line (getlines cpulist))

/-! ## A token -/

/-- The cores of what a token holds. -/
def TokenRead.cores : TokenRead → Except EntryError (List Int)
  | .core n => pure [n]
  | .range first last => rangeLoop first last

theorem parse_entry_eq (token : Bytes) :
    parseEntry token = readToken token >>= TokenRead.cores := by
  rw [parseEntry, readToken]
  cases token.findIdx? (· == 45) with
  | none =>
      dsimp only
      cases stoiOrThrow token <;> rfl
  | some dashPos =>
      dsimp only
      cases stoiOrThrow (token.take dashPos) with
      | error e => rfl
      | ok first => cases stoiOrThrow (token.drop (dashPos + 1)) <;> rfl

theorem stoi_or_throw_eq_ok {text : Bytes} {n : Int} :
    stoiOrThrow text = .ok n ↔ stoi text = .ok n := by
  rw [stoiOrThrow]
  cases stoi text <;> simp [Except.mapError]

theorem is_int_of_stoi {text : Bytes} {n : Int} (h : stoiOrThrow text = .ok n) : IsInt n := by
  rw [stoi_or_throw_eq_ok, stoi] at h
  split at h
  · cases h
  · split at h
    · next hint => exact Except.ok.inj h ▸ hint
    · cases h

/-- The bounds of a range are `int`s. -/
theorem is_int_of_range {token : Bytes} {first last : Int}
    (h : readToken token = .ok (.range first last)) : IsInt first ∧ IsInt last := by
  rw [readToken] at h
  cases hdash : token.findIdx? (· == 45) with
  | none =>
      rw [hdash] at h
      obtain ⟨core, -, hcore⟩ := bind_eq_ok.mp h
      cases pure_eq_ok.mp hcore
  | some dashPos =>
      rw [hdash] at h
      obtain ⟨x, hx, h⟩ := bind_eq_ok.mp h
      obtain ⟨y, hy, hrange⟩ := bind_eq_ok.mp h
      cases pure_eq_ok.mp hrange
      exact ⟨is_int_of_stoi hx, is_int_of_stoi hy⟩

/-- Nothing but an exception keeps a token from being read. -/
theorem read_token_thrown {token : Bytes} {e : EntryError} (h : readToken token = .error e) :
    e = .thrown := by
  have hthrown : ∀ {text : Bytes} {e : EntryError}, stoiOrThrow text = .error e → e = .thrown := by
    intro text e he
    rw [stoiOrThrow] at he
    cases hstoi : stoi text with
    | error => exact (Except.error.inj (hstoi ▸ he)).symm
    | ok n =>
        rw [hstoi] at he
        cases he
  rw [readToken] at h
  split at h
  · rcases bind_eq_error.mp h with h | ⟨first, -, h⟩
    · exact hthrown h
    · rcases bind_eq_error.mp h with h | ⟨last, -, h⟩
      · exact hthrown h
      · cases h
  · rcases bind_eq_error.mp h with h | ⟨core, -, h⟩
    · exact hthrown h
    · cases h

/-- The exceptions are those of `std::stoi`. -/
theorem parse_thrown_iff {token : Bytes} :
    parseEntry token = .error .thrown ↔ readToken token = .error .thrown := by
  rw [parse_entry_eq, bind_eq_error]
  refine ⟨fun h => h.resolve_right ?_, .inl⟩
  rintro ⟨holds, -, hcores⟩
  cases holds with
  | core n => cases hcores
  | range first last =>
      rw [TokenRead.cores, rangeLoop] at hcores
      split at hcores <;> cases hcores

/-! ## The machine -/

theorem int_range_of_lt {first last : Int} (h : last < first) : intRange first last = [] := by
  have hzero : (last + 1 - first).toNat = 0 := by omega
  rw [intRange, hzero]
  rfl

theorem int_range_succ (first : Int) (n : Nat) :
    intRange first (first + (n + 1 : Nat)) = intRange first (first + n) ++ [first + n + 1] := by
  have hsucc : (first + (n + 1 : Nat) + 1 - first).toNat = n + 1 + 1 := by omega
  have hn : (first + n + 1 - first).toNat = n + 1 := by omega
  have hlast : first + ((n + 1 : Nat) : Int) = first + n + 1 := by push_cast; ring
  rw [intRange, intRange, hsucc, hn, List.range_succ, List.map_append, List.map_singleton, hlast]

theorem foldl_push_back (cores new : List Int) : new.foldl pushBack cores = cores ++ new := by
  induction new generalizing cores with
  | nil => exact (List.append_nil cores).symm
  | cons core new ih =>
      rw [List.foldl_cons, ih, pushBack, List.append_assoc]
      rfl

section

variable {σ : Type u} {push : σ → Int → σ} {s : σ} {token : Bytes} {tokens : List Bytes}

theorem next_increment {i last : Int} (h : IsInt (i + 1)) :
    (s, .test (i + 1) last tokens) ∈ next push (s, .increment i last tokens) := if_pos h

theorem next_range {first last : Int} (h : readToken token = .ok (.range first last)) :
    (s, .test first last tokens) ∈ next push (s, .line (token :: tokens)) := by
  show next push _ = some _
  rw [next, h]

/-- The loop over a range up to one of its cores, in front of the increment behind it. -/
theorem reaches_increment {first last : Int} {n : Nat} (hlast : IsInt last)
    (hn : first + n ≤ last) (hfirst : IsInt first) :
    Reaches (next push) (s, .test first last tokens)
      ((intRange first (first + n)).foldl push s, .increment (first + n) last tokens) := by
  induction n with
  | zero =>
      have hrange : intRange first (first + (0 : Nat)) = [first] := by
        rw [Nat.cast_zero, Int.add_zero]
        exact int_range_self first
      have hle : first ≤ last := by omega
      rw [hrange, Nat.cast_zero, Int.add_zero]
      exact .single (if_pos hle)
  | succ n ih =>
      have hint : IsInt (first + n + 1) := by
        rw [IsInt] at *
        omega
      have hle : first + n + 1 ≤ last := by omega
      have hcast : first + ((n + 1 : Nat) : Int) = first + n + 1 := by push_cast; ring
      have hincrement := Relation.ReflTransGen.tail (ih (by omega)) (next_increment hint)
      rw [int_range_succ, List.foldl_append, hcast]
      exact hincrement.tail (if_pos hle)

/-- The loop over a range that ends in front of the largest `int`. -/
theorem reaches_range {first last : Int} (hfirst : IsInt first) (hlast : IsInt last)
    (hmax : last ≠ 2 ^ 31 - 1) : Reaches (next push) (s, .test first last tokens)
      ((intRange first last).foldl push s, .line tokens) := by
  by_cases hle : first ≤ last
  · obtain ⟨n, rfl⟩ : ∃ n : Nat, last = first + n := ⟨(last - first).toNat, by omega⟩
    have hint : IsInt (first + n + 1) := by
      rw [IsInt] at *
      omega
    have hloop : Reaches (next push) (s, .test first (first + n) tokens) _ :=
      reaches_increment hlast le_rfl hfirst
    exact (Relation.ReflTransGen.tail hloop (next_increment hint)).tail (if_neg (by omega))
  · rw [int_range_of_lt (by omega)]
    exact .single (if_neg hle)

/-- A token whose cores are read. -/
theorem reaches_of_parse {new : List Int} (h : parseEntry token = .ok new) :
    Reaches (next push) (s, .line (token :: tokens)) (new.foldl push s, .line tokens) := by
  rw [parse_entry_eq, bind_eq_ok] at h
  obtain ⟨holds, hread, hcores⟩ := h
  cases holds with
  | core n =>
      obtain rfl := pure_eq_ok.mp hcores
      refine .single ?_
      show next push _ = some _
      rw [next, hread]
      rfl
  | range first last =>
      obtain ⟨hfirst, hlast⟩ := is_int_of_range hread
      rw [TokenRead.cores, rangeLoop] at hcores
      split at hcores
      · cases hcores
      · next hends =>
          obtain rfl := pure_eq_ok.mp hcores
          refine .head (next_range hread) (reaches_range hfirst hlast ?_)
          rintro rfl
          exact hends ⟨by rw [IsInt] at hfirst; omega, rfl⟩

/-- A token that is refused. -/
theorem reaches_of_thrown (h : parseEntry token = .error .thrown) :
    Reaches (next push) (s, .line (token :: tokens)) (s, .returned false) := by
  refine .single ?_
  show next push _ = some _
  rw [next, parse_thrown_iff.mp h]

/-- The range of a token that ends with the largest `int`. -/
theorem range_of_undefined (h : parseEntry token = .error .undefined) :
    ∃ first, readToken token = .ok (.range first (2 ^ 31 - 1)) := by
  rw [parse_entry_eq, bind_eq_error] at h
  rcases h with h | ⟨holds, hread, hcores⟩
  · cases read_token_thrown h
  · cases holds with
    | core n => cases hcores
    | range first last =>
        rw [TokenRead.cores, rangeLoop] at hcores
        split at hcores
        · next hends =>
            obtain rfl := hends.2
            exact ⟨first, hread⟩
        · cases hcores

/-- A range that ends with the largest `int`: the increment behind its last core is reached. -/
theorem reaches_of_undefined (h : parseEntry token = .error .undefined) :
    ∃ s', Reaches (next push) (s, .line (token :: tokens))
      (s', .increment (2 ^ 31 - 1) (2 ^ 31 - 1) tokens) := by
  obtain ⟨first, hread⟩ := range_of_undefined h
  obtain ⟨hfirst, hlast⟩ := is_int_of_range hread
  obtain ⟨n, hn⟩ : ∃ n : Nat, (2 : Int) ^ 31 - 1 = first + n :=
    ⟨(2 ^ 31 - 1 - first).toNat, by rw [IsInt] at hfirst; omega⟩
  have hloop : Reaches (next push) (s, .test first (2 ^ 31 - 1) tokens)
      ((intRange first (first + n)).foldl push s, .increment (first + n) (2 ^ 31 - 1) tokens) :=
    reaches_increment hlast (by omega) hfirst
  rw [← hn] at hloop
  exact ⟨_, .head (next_range hread) hloop⟩

/-- A run has one end. -/
theorem returned_unique {start end_ end_' : σ × Control} (h : Reaches (next push) start end_)
    (h' : Reaches (next push) start end_') (hstuck : next push end_ = none)
    (hstuck' : next push end_' = none) : end_ = end_' :=
  Part.mem_unique (mem_eval.mpr ⟨h, hstuck⟩) (mem_eval.mpr ⟨h', hstuck'⟩)

theorem next_overflow : next push (s, .increment (2 ^ 31 - 1) (2 ^ 31 - 1) tokens) = none := by
  have hover : ¬ IsInt (2 ^ 31 - 1 + 1) := by decide
  rw [next]
  exact if_neg hover

end

/-! ## The loop over the tokens -/

section

variable {σ : Type u} (push : σ → Int → σ)

/-- The loop over the tokens: how it ends, and what the cores in front of it make. -/
def lineLoop : List Bytes → σ → Except EntryError Unit × σ
  | [], s => (pure (), s)
  | token :: tokens, s =>
      match parseEntry token with
      | .ok new => lineLoop tokens (new.foldl push s)
      | .error e => (.error e, s)

/-- The machine at the end of the loop: behind a `return`, or in front of an increment that is not
defined. -/
def Ends (start : σ × Control) : Except EntryError Unit × σ → Prop
  | (.ok _, s) => Reaches (next push) start (s, .returned true)
  | (.error .thrown, s) => Reaches (next push) start (s, .returned false)
  | (.error .undefined, _) => ∃ s' tokens, Reaches (next push) start
      (s', .increment (2 ^ 31 - 1) (2 ^ 31 - 1) tokens)

variable {push}

theorem Ends.head {start start' : σ × Control} {ending : Except EntryError Unit × σ}
    (h : Reaches (next push) start start') (hends : Ends push start' ending) :
    Ends push start ending := by
  obtain ⟨result, s⟩ := ending
  cases result with
  | ok => exact Relation.ReflTransGen.trans h hends
  | error e =>
      cases e with
      | thrown => exact Relation.ReflTransGen.trans h hends
      | undefined =>
          obtain ⟨s', tokens, hends⟩ := hends
          exact ⟨s', tokens, Relation.ReflTransGen.trans h hends⟩

/-- The machine does what the loop over the tokens does. -/
theorem line_loop_ends (tokens : List Bytes) (s : σ) :
    Ends push (s, .line tokens) (lineLoop push tokens s) := by
  induction tokens generalizing s with
  | nil => exact .single rfl
  | cons token tokens ih =>
      rw [lineLoop]
      cases hparse : parseEntry token with
      | ok new => exact (ih (new.foldl push s)).head (reaches_of_parse hparse)
      | error e =>
          cases e with
          | thrown => exact reaches_of_thrown hparse
          | undefined =>
              obtain ⟨s', hstuck⟩ := reaches_of_undefined hparse
              exact ⟨s', tokens, hstuck⟩

/-- The machine returns exactly what the loop over the tokens ends with. -/
theorem reaches_returned_iff {tokens : List Bytes} {s s' : σ} {success : Bool} :
    Reaches (next push) (s, .line tokens) (s', .returned success) ↔
      lineLoop push tokens s = (if success then .ok () else .error .thrown, s') := by
  have hends : Ends push (s, .line tokens) (lineLoop push tokens s) := line_loop_ends tokens s
  generalize lineLoop push tokens s = ending at hends
  constructor
  · intro h
    obtain ⟨result, s₁⟩ := ending
    cases result with
    | ok =>
        cases returned_unique h hends rfl rfl
        rfl
    | error e =>
        cases e with
        | thrown =>
            cases returned_unique h hends rfl rfl
            rfl
        | undefined =>
            obtain ⟨s₂, tokens, hends⟩ := hends
            cases returned_unique h hends rfl next_overflow
  · rintro rfl
    cases success <;> exact hends

end

/-- The loop of `parse_cpu_list_to_mask`. -/
theorem line_loop_mask (tokens : List Bytes) (mask : Finset Nat) :
    lineLoop cpuSet tokens mask = maskLoop tokens mask := by
  induction tokens generalizing mask with
  | nil => rfl
  | cons token tokens ih =>
      rw [lineLoop, maskLoop]
      cases parseEntry token with
      | ok new => exact ih (new.foldl cpuSet mask)
      | error e => rfl

/-- The loop of `parse_cpu_list`, whose cores are lost with an exception. -/
theorem line_loop_list (tokens : List Bytes) (cores : List Int) :
    tokens.foldlM readEntry cores = (lineLoop pushBack tokens cores).1.map fun _ =>
      (lineLoop pushBack tokens cores).2 := by
  induction tokens generalizing cores with
  | nil => rfl
  | cons token tokens ih =>
      rw [List.foldlM_cons, readEntry, lineLoop]
      cases parseEntry token with
      | ok new =>
          show tokens.foldlM readEntry (cores ++ new) = _
          rw [ih, ← foldl_push_back]
      | error e => rfl

/-- The result of `parse_cpu_list` is that of its machine. -/
theorem list_eq_some {cpulist : Bytes} {result : List Int} :
    parseCpuList cpulist = some result ↔ ∃ cores success,
      Reaches (next pushBack) (listStart cpulist) (cores, .returned success) ∧
        result = if success then cores else [] := by
  rw [parseCpuList, listStart]
  split
  · constructor
    · intro h
      exact ⟨[], true, .refl, (Option.some.inj h).symm⟩
    · rintro ⟨cores, success, hreach, rfl⟩
      cases returned_unique hreach .refl rfl rfl
      rfl
  · simp only [reaches_returned_iff]
    rw [line_loop_list]
    obtain ⟨ending, cores⟩ := lineLoop pushBack (getlines cpulist) []
    constructor
    · intro h
      cases ending with
      | ok => exact ⟨cores, true, rfl, (Option.some.inj h).symm⟩
      | error e =>
          cases e with
          | thrown => exact ⟨cores, false, rfl, (Option.some.inj h).symm⟩
          | undefined => cases h
    · rintro ⟨cores', success, hloop, rfl⟩
      cases success <;> cases hloop <;> rfl

/-- The result of `parse_cpu_list_to_mask` is that of its machine. -/
theorem mask_eq_some {cpulist : Bytes} {success : Bool} {mask : Finset Nat} :
    parseCpuListToMask cpulist = some (success, mask) ↔
      Reaches (next cpuSet) (maskStart cpulist) (mask, .returned success) := by
  rw [parseCpuListToMask, maskStart]
  split
  · constructor
    · intro h
      cases h
      exact .refl
    · intro h
      cases returned_unique h .refl rfl rfl
      rfl
  · rw [reaches_returned_iff, line_loop_mask]
    obtain ⟨ending, mask'⟩ := maskLoop (getlines cpulist) ∅
    constructor
    · intro h
      cases ending with
      | ok => cases h; rfl
      | error e => cases e <;> cases h; rfl
    · intro h
      cases success <;> cases h <;> rfl

/-! ## Which strings are parsed -/

/-- `std::stoi` accepts the numbers of the token. -/
def Accepted (token : Bytes) : Prop :=
  match token.findIdx? (· == 45) with
  | some dashPos => (∃ n, stoi (token.take dashPos) = .ok n) ∧
      ∃ n, stoi (token.drop (dashPos + 1)) = .ok n
  | none => ∃ n, stoi token = .ok n

/-- The token is a range that ends with the largest `int`. -/
def EndsAtMax (token : Bytes) : Prop :=
  ∃ dashPos, token.findIdx? (· == 45) = some dashPos ∧
    (∃ n, stoi (token.take dashPos) = .ok n) ∧
    stoi (token.drop (dashPos + 1)) = .ok (2 ^ 31 - 1)

/-- Of the tokens in front of the first one that is refused, none ends with the largest `int`. -/
def EndsBelowMax (tokens : List Bytes) : Prop :=
  ∀ front token back, tokens = front ++ token :: back → (∀ t ∈ front, Accepted t) →
    ¬ EndsAtMax token

/-- The counter of exactly such a range overflows. -/
theorem parse_undefined_iff {token : Bytes} :
    parseEntry token = .error .undefined ↔ EndsAtMax token := by
  constructor
  · intro h
    obtain ⟨first, hread⟩ := range_of_undefined h
    rw [readToken] at hread
    cases hdash : token.findIdx? (· == 45) with
    | none =>
        rw [hdash] at hread
        obtain ⟨core, -, hcore⟩ := bind_eq_ok.mp hread
        cases pure_eq_ok.mp hcore
    | some dashPos =>
        rw [hdash] at hread
        obtain ⟨x, hx, hread⟩ := bind_eq_ok.mp hread
        obtain ⟨y, hy, hrange⟩ := bind_eq_ok.mp hread
        cases pure_eq_ok.mp hrange
        exact ⟨dashPos, hdash, ⟨_, stoi_or_throw_eq_ok.mp hx⟩, stoi_or_throw_eq_ok.mp hy⟩
  · rintro ⟨dashPos, hdash, ⟨first, hfirst⟩, hlast⟩
    have hx := stoi_or_throw_eq_ok.mpr hfirst
    have hint := is_int_of_stoi hx
    rw [parseEntry, hdash]
    dsimp only
    rw [hx, stoi_or_throw_eq_ok.mpr hlast]
    show rangeLoop first (2 ^ 31 - 1) = _
    rw [rangeLoop]
    refine if_pos ⟨?_, rfl⟩
    rw [IsInt] at hint
    omega

/-- The tokens whose numbers are accepted are those that are read. -/
theorem accepted_iff {token : Bytes} : Accepted token ↔ ∃ holds, readToken token = .ok holds := by
  rw [Accepted, readToken]
  cases token.findIdx? (· == 45) with
  | none =>
      constructor
      · rintro ⟨n, hn⟩
        exact ⟨_, bind_eq_ok.mpr ⟨n, stoi_or_throw_eq_ok.mpr hn, rfl⟩⟩
      · rintro ⟨holds, hread⟩
        obtain ⟨n, hn, -⟩ := bind_eq_ok.mp hread
        exact ⟨n, stoi_or_throw_eq_ok.mp hn⟩
  | some dashPos =>
      constructor
      · rintro ⟨⟨first, hfirst⟩, ⟨last, hlast⟩⟩
        refine ⟨.range first last, bind_eq_ok.mpr ⟨first, stoi_or_throw_eq_ok.mpr hfirst, ?_⟩⟩
        exact bind_eq_ok.mpr ⟨last, stoi_or_throw_eq_ok.mpr hlast, rfl⟩
      · rintro ⟨holds, hread⟩
        obtain ⟨first, hfirst, hread⟩ := bind_eq_ok.mp hread
        obtain ⟨last, hlast, -⟩ := bind_eq_ok.mp hread
        exact ⟨⟨first, stoi_or_throw_eq_ok.mp hfirst⟩, ⟨last, stoi_or_throw_eq_ok.mp hlast⟩⟩

theorem not_thrown_iff {token : Bytes} : parseEntry token ≠ .error .thrown ↔ Accepted token := by
  rw [accepted_iff, Ne, parse_thrown_iff]
  cases hread : readToken token with
  | ok holds => exact ⟨fun _ => ⟨holds, rfl⟩, fun _ h => by cases h⟩
  | error e =>
      obtain rfl := read_token_thrown hread
      constructor
      · intro h
        exact absurd rfl h
      · rintro ⟨holds, h⟩
        cases h

theorem ends_below_max_cons {token : Bytes} {tokens : List Bytes} :
    EndsBelowMax (token :: tokens) ↔
      ¬ EndsAtMax token ∧ (Accepted token → EndsBelowMax tokens) := by
  constructor
  · intro h
    refine ⟨h [] token tokens rfl (fun t ht => absurd ht List.not_mem_nil), ?_⟩
    rintro haccepted front token' back rfl hfront
    exact h (token :: front) token' back rfl (List.forall_mem_cons.mpr ⟨haccepted, hfront⟩)
  · rintro ⟨hmax, htail⟩ front token' back heq hfront
    cases front with
    | nil =>
        cases heq
        exact hmax
    | cons t front =>
        cases heq
        obtain ⟨haccepted, hfront⟩ := List.forall_mem_cons.mp hfront
        exact htail haccepted front token' back rfl hfront

/-- The loop over the tokens ends exactly if no range that it reaches ends with the largest
`int`. -/
theorem line_loop_defined_iff {σ : Type u} {push : σ → Int → σ} {tokens : List Bytes} {s : σ} :
    (lineLoop push tokens s).1 ≠ .error .undefined ↔ EndsBelowMax tokens := by
  induction tokens generalizing s with
  | nil =>
      rw [lineLoop]
      refine ⟨fun _ front token back heq => ?_, fun _ h => by cases h⟩
      exact absurd heq.symm (List.append_ne_nil_of_right_ne_nil _ (List.cons_ne_nil _ _))
  | cons token tokens ih =>
      rw [ends_below_max_cons, ← parse_undefined_iff, ← not_thrown_iff, lineLoop]
      cases hparse : parseEntry token with
      | ok new =>
          dsimp only
          rw [ih]
          simp
      | error e => cases e <;> simp

theorem returns_iff {σ : Type u} {push : σ → Int → σ} {tokens : List Bytes} {s : σ} :
    Returns push (s, .line tokens) ↔ EndsBelowMax tokens := by
  have hdefined : (lineLoop push tokens s).1 ≠ .error .undefined ↔ EndsBelowMax tokens :=
    line_loop_defined_iff
  rw [Returns, ← hdefined]
  simp only [reaches_returned_iff]
  constructor
  · rintro ⟨s', success, hloop⟩ h
    rw [hloop] at h
    cases success <;> cases h
  · intro h
    generalize lineLoop push tokens s = result at h ⊢
    obtain ⟨ending, s'⟩ := result
    cases ending with
    | ok => exact ⟨s', true, rfl⟩
    | error e =>
        cases e with
        | thrown => exact ⟨s', false, rfl⟩
        | undefined => exact False.elim (h rfl)

/-- Both parsers return from their loops exactly if no range ends with the largest `int`, up to the
first token that is refused. -/
theorem loops_return_iff (cpulist : Bytes) :
    Returns pushBack (listStart cpulist) ∧ Returns cpuSet (maskStart cpulist) ↔
      EndsBelowMax (getlines cpulist) := by
  cases cpulist with
  | nil =>
      have hnone : EndsBelowMax (getlines []) :=
        line_loop_defined_iff.mp (fun h : (lineLoop pushBack [] []).1 = _ => by cases h)
      exact ⟨fun _ => hnone, fun _ => ⟨⟨[], true, .refl⟩, ⟨∅, false, .refl⟩⟩⟩
  | cons c cpulist =>
      show Returns pushBack ([], .line _) ∧ Returns cpuSet (∅, .line _) ↔ _
      rw [returns_iff, returns_iff, and_self]

/-- The loop over `2147483647-2147483647` overflows its counter. -/
theorem last_int_overflows : ¬ Returns pushBack (listStart
    ([50, 49, 52, 55, 52, 56, 51, 54, 52, 55] ++ 45 ::
      [50, 49, 52, 55, 52, 56, 51, 54, 52, 55])) := by
  intro h
  have hbelow := returns_iff.mp h
  exact hbelow [] _ [] rfl (fun t ht => absurd ht List.not_mem_nil) ⟨10, rfl, ⟨_, rfl⟩, rfl⟩

end Rapidsmpf.Bootstrap
