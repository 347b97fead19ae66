import Mathlib
import Rapidsmpf.Lib.Fallible
import Rapidsmpf.Utils.Stoi

/-!
# CPU lists

`parse_cpu_list` and `compare_cpu_affinity` of `bootstrap/utils.cpp`, and `parse_cpu_list_to_mask`
of `rrun.cpp`, the same parser with a mask for the result. Both read the tokens of a list with
`std::stoi`; the first returns an empty list for what it cannot read, and the lists are compared
with the repetitions in them. `cpu_list_iff` says of which strings both make the right use.

The loop over a range that ends with the largest `int` has no end that is defined.
-/

namespace Rapidsmpf.Bootstrap

open Decimal Fallible Utils

/-! ## The code -/

/-- What keeps an entry from being read: an exception, which is caught, or undefined behaviour. -/
inductive EntryError where
  | thrown
  | undefined
deriving DecidableEq

/-- The `int`s from one to another. -/
def intRange (first last : Int) : List Int :=
  (List.range (last + 1 - first).toNat).map fun i : Nat => first + (i : Int)

/-- The loop over a range. The counter overflows behind the largest `int`. -/
def rangeLoop (first last : Int) : Except EntryError (List Int) :=
  if first ≤ last ∧ last = 2 ^ 31 - 1 then throw .undefined else pure (intRange first last)

/-- `std::stoi` under a `catch (...)`. -/
def stoiOrThrow (text : Bytes) : Except EntryError Int := (stoi text).mapError fun _ => .thrown

/-- The cores of one token. -/
def parseEntry (token : Bytes) : Except EntryError (List Int) :=
  match token.findIdx? (· == 45) with
  | some dashPos => do
      let first ← stoiOrThrow (token.take dashPos)
      let last ← stoiOrThrow (token.drop (dashPos + 1))
      rangeLoop first last
  | none => do
      let core ← stoiOrThrow token
      pure [core]

/-- The tokens that `std::getline` finds: nothing follows a last comma. -/
def getlines (text : Bytes) : List Bytes :=
  let fields := text.splitOn 44
  if fields.getLast? = some [] then fields.dropLast else fields

/-- One iteration over the tokens. -/
def readEntry (cores : List Int) (token : Bytes) : Except EntryError (List Int) := do
  let new ← parseEntry token
  pure (cores ++ new)

/-- `parse_cpu_list`, if its result is defined. -/
def parseCpuList (cpulist : Bytes) : Option (List Int) :=
  if cpulist.isEmpty then some []
  else
    match (getlines cpulist).foldlM readEntry [] with
    | .ok cores => some cores
    | .error .thrown => some []
    | .error .undefined => none

/-- `compare_cpu_affinity`, if its result is defined. -/
def compareCpuAffinity (actual expected : Bytes) : Option Bool :=
  if actual.isEmpty && expected.isEmpty then some true
  else if actual.isEmpty || expected.isEmpty then some false
  else do
    let actualCores ← parseCpuList actual
    let expectedCores ← parseCpuList expected
    pure (decide (actualCores.insertionSort (· ≤ ·) = expectedCores.insertionSort (· ≤ ·)))

/-- `CPU_SETSIZE`. -/
def cpuSetSize : Nat := 1024

/-- `CPU_SET` of a core that the mask has room for. -/
def cpuSet (mask : Finset Nat) (core : Int) : Finset Nat :=
  if 0 ≤ core ∧ core < cpuSetSize then insert core.toNat mask else mask

/-- The loop of `parse_cpu_list_to_mask`: the mask as far as it was filled, and how it ended. -/
def maskLoop : List Bytes → Finset Nat → Except EntryError Unit × Finset Nat
  | [], mask => (pure (), mask)
  | token :: tokens, mask =>
      match parseEntry token with
      | .ok new => maskLoop tokens (new.foldl cpuSet mask)
      | .error e => (.error e, mask)

/-- `parse_cpu_list_to_mask`, if its result is defined: whether it succeeds, and the mask. -/
def parseCpuListToMask (cpulist : Bytes) : Option (Bool × Finset Nat) :=
  if cpulist.isEmpty then some (false, ∅)
  else
    match maskLoop (getlines cpulist) ∅ with
    | (.ok _, mask) => some (true, mask)
    | (.error .thrown, mask) => some (false, mask)
    | (.error .undefined, _) => none

/-! ## Lists of cores -/

/-- An entry of a list: one core, or a range of cores, in digits. -/
inductive Entry where
  | core (digits : Bytes)
  | range (first last : Bytes)
deriving DecidableEq

/-- A string of digits. -/
def Digits (digits : Bytes) : Prop := (∀ c ∈ digits, isDigit c = true) ∧ digits ≠ []

namespace Entry

/-- The text of the entry. -/
def text : Entry → Bytes
  | core digits => digits
  | range first last => first ++ 45 :: last

/-- The first core. -/
def start : Entry → Nat
  | core digits => value digits
  | range first _ => value first

/-- The last core. -/
def stop : Entry → Nat
  | core digits => value digits
  | range _ last => value last

/-- Numbers in digits, and a range that ascends. -/
def Valid : Entry → Prop
  | core digits => Digits digits
  | range first last => Digits first ∧ Digits last ∧ value first ≤ value last

/-- The cores are `int`s, and the loop over them ends. -/
def Fits : Entry → Prop
  | core digits => value digits < 2 ^ 31
  | range _ last => value last < 2 ^ 31 - 1

/-- The cores, as the code has them. -/
def cores (e : Entry) : List Int := intRange e.start e.stop

end Entry

/-- The text of a list. -/
def render (es : List Entry) : Bytes := [44].intercalate (es.map Entry.text)

/-- The cores that a list denotes. -/
def denotes (es : List Entry) : Set Nat := { i | ∃ e ∈ es, e.start ≤ i ∧ i ≤ e.stop }

/-- The string is a list of cores. -/
def WellFormed (text : Bytes) (es : List Entry) : Prop :=
  es ≠ [] ∧ (∀ e ∈ es, e.Valid) ∧ text = render es

/-- The strings are equal as sets of cores: both empty, or lists that denote the same cores. -/
def SameAffinity (actual expected : Bytes) : Prop :=
  actual = [] ∧ expected = [] ∨
    ∃ es es', WellFormed actual es ∧ WellFormed expected es' ∧ denotes es = denotes es'

/-- The comparison answers as it should. -/
def ComparedRight (actual expected : Bytes) : Prop :=
  ∃ answer, compareCpuAffinity actual expected = some answer ∧
    (answer = true ↔ SameAffinity actual expected)

/-- The mask is made exactly for a list of cores, and has those that `parse_cpu_list` finds. -/
def MaskedRight (cpulist : Bytes) : Prop :=
  ∃ succeeds mask, parseCpuListToMask cpulist = some (succeeds, mask) ∧
    (succeeds = true ↔ ∃ es, WellFormed cpulist es) ∧
    (succeeds = true → ∃ cores, parseCpuList cpulist = some cores ∧
      ∀ i, i ∈ mask ↔ i < cpuSetSize ∧ (i : Int) ∈ cores)

/-- The comparisons among two strings, of one with itself too, and their masks are right. -/
def RightOn (a b : Bytes) : Prop := ∀ x ∈ [a, b], MaskedRight x ∧ ∀ y ∈ [a, b], ComparedRight x y

/-- The string is empty or a list of cores that are `int`s. -/
def IntList (text : Bytes) : Prop := text = [] ∨ ∃ es, WellFormed text es ∧ ∀ e ∈ es, e.Fits

/-- How many entries of a list have the core. -/
def mentions (es : List Entry) (i : Nat) : Nat :=
  es.countP fun e => decide (e.start ≤ i ∧ i ≤ e.stop)

/-! ## Reading a list -/

section

variable {a b text : Bytes} {e e' : Entry} {es es' : List Entry}

theorem mem_int_range {first last z : Int} : z ∈ intRange first last ↔ first ≤ z ∧ z ≤ last := by
  rw [intRange, List.mem_map]
  constructor
  · rintro ⟨i, hi, rfl⟩
    rw [List.mem_range] at hi
    omega
  · rintro ⟨hfirst, hlast⟩
    exact ⟨(z - first).toNat, List.mem_range.mpr (by omega), by omega⟩

theorem nodup_int_range (first last : Int) : (intRange first last).Nodup :=
  List.nodup_range.map fun i j hij => by simpa using hij

theorem int_range_self (z : Int) : intRange z z = [z] := by
  have hone : (z + 1 - z).toNat = 1 := by omega
  rw [intRange, hone]
  simp

theorem digits_not_mem {digits : Bytes} {c : UInt8} (h : Digits digits)
    (hc : isDigit c = false) : c ∉ digits := by
  intro hmem
  rw [h.1 c hmem] at hc
  cases hc

theorem stoi_or_throw_digits {digits : Bytes} (h : Digits digits) :
    stoiOrThrow digits = if value digits < 2 ^ 31 then .ok (value digits) else .error .thrown := by
  rw [stoiOrThrow, stoi_digits h.1 h.2]
  split <;> rfl

theorem parse_core {digits : Bytes} (h : Digits digits) : parseEntry digits =
    if value digits < 2 ^ 31 then .ok [(value digits : Int)] else .error .thrown := by
  have hnone : digits.findIdx? (· == 45) = none := by
    rw [List.findIdx?_eq_none_iff]
    intro c hc
    rw [beq_eq_false_iff_ne]
    rintro rfl
    exact digits_not_mem h (by decide) hc
  rw [parseEntry, hnone]
  dsimp only
  rw [stoi_or_throw_digits h]
  split <;> rfl

theorem parse_range {first last : Bytes} (hfirst : Digits first) :
    parseEntry (first ++ 45 :: last) =
      stoiOrThrow first >>= fun x => stoiOrThrow last >>= fun y => rangeLoop x y := by
  have hpos : (first ++ 45 :: last).findIdx? (· == 45) = some first.length := by
    rw [List.findIdx?_eq_some_iff_getElem]
    refine ⟨by simp, by simp, fun j hj => ?_⟩
    rw [List.getElem_append_left hj]
    intro heq
    rw [beq_iff_eq] at heq
    exact digits_not_mem hfirst (by decide) (heq ▸ List.getElem_mem hj)
  have hdrop : (first ++ 45 :: last).drop (first.length + 1) = last := by
    rw [List.drop_append, List.drop_eq_nil_of_le (by omega)]
    simp
  rw [parseEntry, hpos]
  dsimp only
  rw [List.take_left, hdrop]

/-- An entry is read as its cores, if they fit. -/
theorem parse_entry_text (h : e.Valid) (hfits : e.Fits) : parseEntry e.text = .ok e.cores := by
  cases e with
  | core digits =>
      have hlt : value digits < 2 ^ 31 := hfits
      rw [Entry.text, parse_core h, if_pos hlt, Entry.cores, Entry.start, Entry.stop,
        int_range_self]
  | range first last =>
      obtain ⟨hfirst, hlast, hle⟩ := h
      have hlt : value last < 2 ^ 31 - 1 := hfits
      rw [Entry.text, parse_range hfirst, stoi_or_throw_digits hfirst, if_pos (by omega),
        stoi_or_throw_digits hlast, if_pos (by omega)]
      show rangeLoop (value first) (value last) = _
      rw [rangeLoop, if_neg (by omega)]
      rfl

/-- An entry that is read has cores that fit. -/
theorem fits_of_parse (h : e.Valid) {cores : List Int} (hparse : parseEntry e.text = .ok cores) :
    e.Fits := by
  cases e with
  | core digits =>
      rw [Entry.text, parse_core h] at hparse
      split at hparse
      · next hlt => exact hlt
      · cases hparse
  | range first last =>
      obtain ⟨hfirst, hlast, hle⟩ := h
      rw [Entry.text, parse_range hfirst, bind_eq_ok] at hparse
      obtain ⟨x, hx, hparse⟩ := hparse
      rw [bind_eq_ok] at hparse
      obtain ⟨y, hy, hparse⟩ := hparse
      rw [stoi_or_throw_digits hfirst] at hx
      rw [stoi_or_throw_digits hlast] at hy
      split at hx
      · split at hy
        · cases hx
          cases hy
          rw [rangeLoop] at hparse
          split at hparse
          · cases hparse
          · show value last < 2 ^ 31 - 1
            omega
        · cases hy
      · cases hx

theorem valid_ne_nil (h : e.Valid) : e.text ≠ [] := by
  cases e with
  | core digits => exact h.2
  | range first last => exact List.append_ne_nil_of_right_ne_nil _ (List.cons_ne_nil _ _)

theorem comma_not_mem (h : e.Valid) : 44 ∉ e.text := by
  cases e with
  | core digits => exact digits_not_mem h (by decide)
  | range first last =>
      obtain ⟨hfirst, hlast, -⟩ := h
      rw [Entry.text, List.mem_append, List.mem_cons]
      rintro (hmem | hmem | hmem)
      · exact digits_not_mem hfirst (by decide) hmem
      · cases hmem
      · exact digits_not_mem hlast (by decide) hmem

theorem well_formed_ne_nil (h : WellFormed text es) : text ≠ [] := by
  obtain ⟨hne, hvalid, rfl⟩ := h
  cases es with
  | nil => exact absurd rfl hne
  | cons e es =>
      have htext := valid_ne_nil (hvalid e List.mem_cons_self)
      cases es with
      | nil => simpa [render] using htext
      | cons e' es => simp [render, htext]

/-- The tokens of a list are the texts of its entries. -/
theorem getlines_of_well_formed (h : WellFormed text es) : getlines text = es.map Entry.text := by
  obtain ⟨hne, hvalid, rfl⟩ := h
  have hsplit : (render es).splitOn 44 = es.map Entry.text := by
    refine List.splitOn_intercalate 44 ?_ (by simpa using hne)
    intro field hfield
    obtain ⟨e, he, rfl⟩ := List.mem_map.mp hfield
    exact comma_not_mem (hvalid e he)
  have hlast : (es.map Entry.text).getLast? ≠ some [] := by
    intro hnil
    obtain ⟨e, he, htext⟩ := List.mem_map.mp (List.mem_of_getLast? hnil)
    exact valid_ne_nil (hvalid e he) htext
  rw [getlines, hsplit, if_neg hlast]

theorem read_entries {cores : List Int} (hvalid : ∀ e ∈ es, e.Valid) (hfits : ∀ e ∈ es, e.Fits) :
    (es.map Entry.text).foldlM readEntry cores = .ok (cores ++ es.flatMap Entry.cores) := by
  induction es generalizing cores with
  | nil => simp [pure, Except.pure]
  | cons e es ih =>
      have hread : readEntry cores e.text = .ok (cores ++ e.cores) := by
        rw [readEntry, parse_entry_text (hvalid e List.mem_cons_self) (hfits e List.mem_cons_self)]
        rfl
      rw [List.map_cons, List.foldlM_cons, hread]
      show (es.map Entry.text).foldlM readEntry (cores ++ e.cores) = _
      rw [ih (fun e he => hvalid e (List.mem_cons_of_mem _ he))
        (fun e he => hfits e (List.mem_cons_of_mem _ he)), List.flatMap_cons, List.append_assoc]

/-- A list of `int`s is read to its end. -/
theorem read_of_fits (h : WellFormed text es) (hfits : ∀ e ∈ es, e.Fits) :
    (getlines text).foldlM readEntry [] = .ok (es.flatMap Entry.cores) := by
  rw [getlines_of_well_formed h]
  exact read_entries h.2.1 hfits

/-- A list that is read to its end is one of `int`s. -/
theorem fits_of_read (h : WellFormed text es) {cores : List Int}
    (hread : (getlines text).foldlM readEntry [] = .ok cores) : ∀ e ∈ es, e.Fits := by
  intro e he
  rw [getlines_of_well_formed h] at hread
  obtain ⟨c, c', hstep⟩ := foldlM_each hread e.text (List.mem_map_of_mem he)
  rw [readEntry, bind_eq_ok] at hstep
  obtain ⟨new, hparse, -⟩ := hstep
  exact fits_of_parse (h.2.1 e he) hparse

/-! ## The cores of a list -/

/-- A list repeats a core as often as entries mention it. -/
theorem count_cores (es : List Entry) (i : Nat) :
    (es.flatMap Entry.cores).count (i : Int) = mentions es i := by
  induction es with
  | nil => rfl
  | cons e es ih =>
      have hone : e.cores.count (i : Int) = if e.start ≤ i ∧ i ≤ e.stop then 1 else 0 := by
        rw [Entry.cores, (nodup_int_range _ _).count]
        simp only [mem_int_range, Nat.cast_le]
      rw [List.flatMap_cons, List.count_append, ih, hone, mentions, mentions, List.countP_cons,
        Nat.add_comm]
      simp only [decide_eq_true_eq]

theorem nonneg_of_mem_cores {z : Int} (hz : z ∈ es.flatMap Entry.cores) : 0 ≤ z := by
  obtain ⟨e, -, hmem⟩ := List.mem_flatMap.mp hz
  rw [Entry.cores, mem_int_range] at hmem
  omega

theorem perm_iff : (es.flatMap Entry.cores).Perm (es'.flatMap Entry.cores) ↔
    ∀ i, mentions es i = mentions es' i := by
  rw [List.perm_iff_count]
  constructor
  · intro h i
    rw [← count_cores, ← count_cores]
    exact h i
  · intro h z
    by_cases hz : 0 ≤ z
    · obtain ⟨i, rfl⟩ := Int.eq_ofNat_of_zero_le hz
      rw [count_cores, count_cores]
      exact h i
    · have hnot : ∀ es : List Entry, (es.flatMap Entry.cores).count z = 0 := fun es =>
        List.count_eq_zero.mpr fun hmem => hz (nonneg_of_mem_cores hmem)
      rw [hnot, hnot]

theorem mem_denotes {i : Nat} : i ∈ denotes es ↔ 0 < mentions es i := by
  rw [mentions, List.countP_pos_iff]
  simp only [decide_eq_true_eq]
  rfl

theorem denotes_congr (h : ∀ i, mentions es i = mentions es' i) : denotes es = denotes es' := by
  ext i
  rw [mem_denotes, mem_denotes, h i]

theorem sorted_eq_iff {l l' : List Int} :
    l.insertionSort (· ≤ ·) = l'.insertionSort (· ≤ ·) ↔ l.Perm l' := by
  constructor
  · intro h
    exact (List.perm_insertionSort _ l).symm.trans (h ▸ List.perm_insertionSort _ l')
  · intro h
    have hperm := ((List.perm_insertionSort (· ≤ ·) l).trans h).trans
      (List.perm_insertionSort (· ≤ ·) l').symm
    exact hperm.eq_of_pairwise' (List.pairwise_insertionSort _ l) (List.pairwise_insertionSort _ l')

/-! ## The mask -/

theorem mem_foldl_cpu_set {new : List Int} {mask : Finset Nat} {i : Nat} :
    i ∈ new.foldl cpuSet mask ↔ i ∈ mask ∨ i < cpuSetSize ∧ (i : Int) ∈ new := by
  induction new generalizing mask with
  | nil => simp
  | cons core new ih =>
      have hset : i ∈ cpuSet mask core ↔ i ∈ mask ∨ i < cpuSetSize ∧ (i : Int) = core := by
        rw [cpuSet]
        split
        · next hcore =>
            rw [Finset.mem_insert]
            constructor
            · rintro (rfl | hmem)
              · exact .inr (by omega)
              · exact .inl hmem
            · rintro (hmem | ⟨-, rfl⟩)
              · exact .inr hmem
              · exact .inl (Int.toNat_natCast i).symm
        · next hcore =>
            refine ⟨.inl, fun h => h.resolve_right ?_⟩
            rintro ⟨hlt, rfl⟩
            exact hcore (by omega)
      rw [List.foldl_cons, ih, hset, List.mem_cons]
      tauto

/-- The mask has the cores of the entries that are read. -/
theorem mask_loop_ok {tokens : List Bytes} {cores cores' : List Int} (mask : Finset Nat)
    (h : tokens.foldlM readEntry cores = .ok cores') :
    ∃ new, cores' = cores ++ new ∧ maskLoop tokens mask = (pure (), new.foldl cpuSet mask) := by
  induction tokens generalizing cores mask with
  | nil =>
      obtain rfl := pure_eq_ok.mp h
      exact ⟨[], (List.append_nil _).symm, rfl⟩
  | cons token tokens ih =>
      rw [List.foldlM_cons, bind_eq_ok] at h
      obtain ⟨next, hread, h⟩ := h
      rw [readEntry, bind_eq_ok] at hread
      obtain ⟨first, hparse, hnext⟩ := hread
      obtain rfl := pure_eq_ok.mp hnext
      obtain ⟨new, rfl, hloop⟩ := ih (first.foldl cpuSet mask) h
      refine ⟨first ++ new, List.append_assoc .., ?_⟩
      rw [maskLoop, hparse, List.foldl_append]
      exact hloop

theorem mask_loop_error {tokens : List Bytes} {cores : List Int} (mask : Finset Nat)
    {error : EntryError} (h : tokens.foldlM readEntry cores = .error error) :
    (maskLoop tokens mask).1 = .error error := by
  induction tokens generalizing cores mask with
  | nil => cases h
  | cons token tokens ih =>
      rw [List.foldlM_cons, bind_eq_error] at h
      rw [maskLoop]
      rcases h with hread | ⟨next, hread, h⟩
      · rw [readEntry, bind_eq_error] at hread
        rcases hread with hparse | ⟨first, -, hpure⟩
        · rw [hparse]
        · cases hpure
      · rw [readEntry, bind_eq_ok] at hread
        obtain ⟨first, hparse, -⟩ := hread
        rw [hparse]
        exact ih _ h

/-- The two parsers agree on a string that is read to its end. -/
theorem parse_of_read (hne : text ≠ []) {cores : List Int}
    (hread : (getlines text).foldlM readEntry [] = .ok cores) :
    parseCpuList text = some cores ∧
      parseCpuListToMask text = some (true, cores.foldl cpuSet ∅) := by
  have hempty : ¬ text.isEmpty = true := by rwa [List.isEmpty_iff]
  obtain ⟨new, rfl, hloop⟩ := mask_loop_ok ∅ hread
  rw [parseCpuList, if_neg hempty, hread, parseCpuListToMask, if_neg hempty, hloop]
  exact ⟨rfl, rfl⟩

/-- A mask that is made is made from a string that is read to its end. -/
theorem read_of_mask {mask : Finset Nat} (h : parseCpuListToMask text = some (true, mask)) :
    ∃ cores, (getlines text).foldlM readEntry [] = .ok cores := by
  cases hread : (getlines text).foldlM readEntry [] with
  | ok cores => exact ⟨cores, rfl⟩
  | error error =>
      have hloop := mask_loop_error ∅ hread
      rw [parseCpuListToMask] at h
      split at h
      · cases h
      · generalize maskLoop (getlines text) ∅ = result at *
        obtain ⟨ending, mask'⟩ := result
        obtain rfl : ending = .error error := hloop
        cases error with
        | thrown => cases h
        | undefined => cases h

/-! ## Which strings are used right -/

theorem masked_of_int_list (h : IntList text) : MaskedRight text := by
  rcases h with rfl | ⟨es, hwell, hfits⟩
  · refine ⟨false, ∅, rfl, ⟨nofun, ?_⟩, nofun⟩
    rintro ⟨es, hwell⟩
    exact absurd rfl (well_formed_ne_nil hwell)
  · obtain ⟨hparse, hmask⟩ := parse_of_read (well_formed_ne_nil hwell) (read_of_fits hwell hfits)
    refine ⟨true, _, hmask, ⟨fun _ => ⟨es, hwell⟩, fun _ => rfl⟩, fun _ => ⟨_, hparse, ?_⟩⟩
    intro i
    rw [mem_foldl_cpu_set]
    simp

/-- A string equal to itself must be a list of `int`s. -/
theorem int_list_of_right (hmask : MaskedRight text) (hcompare : ComparedRight text text) :
    IntList text := by
  by_cases hnil : text = []
  · exact .inl hnil
  obtain ⟨answer, hanswer, hsame⟩ := hcompare
  have hempty : text.isEmpty = false := by rwa [List.isEmpty_eq_false_iff]
  rw [compareCpuAffinity, hempty] at hanswer
  obtain ⟨cores, hparse, hanswer⟩ := Option.bind_eq_some_iff.mp hanswer
  rw [hparse] at hanswer
  have htrue : answer = true := by simpa using hanswer.symm
  rcases hsame.mp htrue with ⟨rfl, -⟩ | ⟨es, -, hwell, -, -⟩
  · exact absurd rfl hnil
  obtain ⟨succeeds, mask, hmask, hiff, -⟩ := hmask
  obtain rfl := hiff.mpr ⟨es, hwell⟩
  obtain ⟨cores, hread⟩ := read_of_mask hmask
  exact .inr ⟨es, hwell, fits_of_read hwell hread⟩

/-- Two lists of `int`s are equal for the comparison if they repeat each core equally often. -/
theorem compare_lists (ha : WellFormed a es) (hb : WellFormed b es') (hfa : ∀ e ∈ es, e.Fits)
    (hfb : ∀ e ∈ es', e.Fits) : ∃ answer, compareCpuAffinity a b = some answer ∧
      (answer = true ↔ ∀ i, mentions es i = mentions es' i) := by
  have hae : a.isEmpty = false := List.isEmpty_eq_false_iff.mpr (well_formed_ne_nil ha)
  have hbe : b.isEmpty = false := List.isEmpty_eq_false_iff.mpr (well_formed_ne_nil hb)
  have hparse := (parse_of_read (well_formed_ne_nil ha) (read_of_fits ha hfa)).1
  have hparse' := (parse_of_read (well_formed_ne_nil hb) (read_of_fits hb hfb)).1
  rw [compareCpuAffinity, hae, hbe, hparse, hparse']
  refine ⟨_, rfl, ?_⟩
  rw [decide_eq_true_eq, sorted_eq_iff, perm_iff]

theorem mentions_unique (h : IntList text) (hes : WellFormed text es) (hes' : WellFormed text es') :
    ∀ i, mentions es i = mentions es' i := by
  rcases h with rfl | ⟨es₀, hwell, hfits⟩
  · exact absurd rfl (well_formed_ne_nil hes)
  have hread := read_of_fits hwell hfits
  have hleft := read_of_fits hes (fits_of_read hes hread)
  have hright := read_of_fits hes' (fits_of_read hes' hread)
  rw [hleft] at hright
  exact perm_iff.mp (Except.ok.inj hright ▸ List.Perm.refl _)

/-- Strings are compared right if lists that denote the same cores repeat them equally often. -/
theorem compared_of_int_lists (ha : IntList a) (hb : IntList b)
    (hrepeat : ∀ es es', WellFormed a es → WellFormed b es' → denotes es = denotes es' →
      ∀ i, mentions es i = mentions es' i) : ComparedRight a b := by
  rcases ha with rfl | ⟨es, ha, hfa⟩
  · refine ⟨b.isEmpty, ?_, ?_⟩
    · cases b with
      | nil => rfl
      | cons c b => rfl
    · rw [List.isEmpty_iff]
      refine ⟨fun hnil => .inl ⟨rfl, hnil⟩, ?_⟩
      rintro (⟨-, hnil⟩ | ⟨es, -, hwell, -, -⟩)
      · exact hnil
      · exact absurd rfl (well_formed_ne_nil hwell)
  rcases hb with rfl | ⟨es', hb, hfb⟩
  · refine ⟨false, ?_, nofun, ?_⟩
    · have hae : a.isEmpty = false := List.isEmpty_eq_false_iff.mpr (well_formed_ne_nil ha)
      rw [compareCpuAffinity, hae]
      rfl
    · rintro (⟨rfl, -⟩ | ⟨-, es', -, hwell, -⟩)
      · exact absurd rfl (well_formed_ne_nil ha)
      · exact absurd rfl (well_formed_ne_nil hwell)
  obtain ⟨answer, hanswer, hsame⟩ := compare_lists ha hb hfa hfb
  refine ⟨answer, hanswer, hsame.trans ⟨fun h => ?_, ?_⟩⟩
  · exact .inr ⟨es, es', ha, hb, denotes_congr h⟩
  · rintro (⟨rfl, -⟩ | ⟨es₁, es₁', ha₁, hb₁, hdenotes⟩)
    · exact absurd rfl (well_formed_ne_nil ha)
    intro i
    rw [mentions_unique (.inr ⟨es, ha, hfa⟩) ha ha₁ i, hrepeat es₁ es₁' ha₁ hb₁ hdenotes i]
    exact mentions_unique (.inr ⟨es', hb, hfb⟩) hb₁ hb i

/-- Two strings are used right exactly when each is empty or a list of `int`s, and lists that
denote the same cores repeat them equally often. -/
theorem cpu_list_iff (a b : Bytes) : RightOn a b ↔ IntList a ∧ IntList b ∧
    ∀ es es', WellFormed a es → WellFormed b es' → denotes es = denotes es' →
      ∀ i, mentions es i = mentions es' i := by
  constructor
  · intro h
    obtain ⟨hma, hca⟩ := h a List.mem_cons_self
    obtain ⟨hmb, hcb⟩ := h b (List.mem_cons_of_mem _ List.mem_cons_self)
    have ha : IntList a := int_list_of_right hma (hca a List.mem_cons_self)
    have hb : IntList b :=
      int_list_of_right hmb (hcb b (List.mem_cons_of_mem _ List.mem_cons_self))
    refine ⟨ha, hb, fun es es' hes hes' hdenotes => ?_⟩
    have hfits : ∀ {text es}, IntList text → WellFormed text es → ∀ e ∈ es, e.Fits := by
      rintro text es (rfl | ⟨es₀, hwell, hfits⟩) hes
      · exact absurd rfl (well_formed_ne_nil hes)
      · exact fits_of_read hes (read_of_fits hwell hfits)
    obtain ⟨answer, hanswer, hsame⟩ := compare_lists hes hes' (hfits ha hes) (hfits hb hes')
    obtain ⟨answer', hanswer', hright⟩ := hca b (List.mem_cons_of_mem _ List.mem_cons_self)
    obtain rfl : answer' = answer := Option.some.inj (hanswer'.symm.trans hanswer)
    exact hsame.mp (hright.mpr (.inr ⟨es, es', hes, hes', hdenotes⟩))
  · rintro ⟨ha, hb, hrepeat⟩
    have hlists : ∀ x ∈ [a, b], IntList x := by
      intro x hx
      rcases List.mem_cons.mp hx with rfl | hx
      · exact ha
      · exact List.mem_singleton.mp hx ▸ hb
    intro x hx
    refine ⟨masked_of_int_list (hlists x hx), fun y hy => ?_⟩
    refine compared_of_int_lists (hlists x hx) (hlists y hy) fun es es' hes hes' hdenotes => ?_
    rcases List.mem_cons.mp hx with rfl | hx
    · rcases List.mem_cons.mp hy with rfl | hy
      · exact mentions_unique ha hes hes'
      · obtain rfl := List.mem_singleton.mp hy
        exact hrepeat es es' hes hes' hdenotes
    · obtain rfl := List.mem_singleton.mp hx
      rcases List.mem_cons.mp hy with rfl | hy
      · exact fun i => (hrepeat es' es hes' hes hdenotes.symm i).symm
      · obtain rfl := List.mem_singleton.mp hy
        exact mentions_unique hb hes hes'

/-- The list `0,0` is told from the list `0`, and `x` is not told from `y`. -/
theorem repeated_core_told_apart :
    ¬ ComparedRight [48, 44, 48] [48] ∧ ¬ RightOn [120] [121] := by
  constructor
  · rintro ⟨answer, hanswer, hsame⟩
    have hfalse : compareCpuAffinity [48, 44, 48] [48] = some false := rfl
    obtain rfl : answer = false := Option.some.inj (hanswer.symm.trans hfalse)
    have hzero : Entry.Valid (.core [48]) :=
      ⟨List.forall_mem_singleton.mpr rfl, List.cons_ne_nil _ _⟩
    have htwice : WellFormed [48, 44, 48] [.core [48], .core [48]] :=
      ⟨List.cons_ne_nil _ _, List.forall_mem_cons.mpr ⟨hzero, List.forall_mem_singleton.mpr hzero⟩,
        rfl⟩
    have honce : WellFormed [48] [.core [48]] :=
      ⟨List.cons_ne_nil _ _, List.forall_mem_singleton.mpr hzero, rfl⟩
    refine Bool.false_ne_true (hsame.mpr (.inr ⟨_, _, htwice, honce, ?_⟩))
    ext i
    simp [denotes]
  · intro h
    obtain ⟨hmask, hcompare⟩ := h [120] List.mem_cons_self
    have hlist := int_list_of_right hmask (hcompare [120] List.mem_cons_self)
    rcases hlist with hnil | ⟨es, hwell, hfits⟩
    · cases hnil
    · have hread := read_of_fits hwell hfits
      have herror : (getlines [120]).foldlM readEntry [] = .error .thrown := rfl
      rw [herror] at hread
      cases hread

end

/-! ## Lists without repetitions -/

/-- A list of cores that are `int`s, none of them twice. -/
def Tidy (text : Bytes) : Prop :=
  ∃ es, WellFormed text es ∧ (∀ e ∈ es, e.Fits) ∧
    es.Pairwise fun e e' => e.stop < e'.start ∨ e'.stop < e.start

theorem mentions_of_disjoint {es : List Entry}
    (h : es.Pairwise fun e e' => e.stop < e'.start ∨ e'.stop < e.start) (i : Nat) :
    mentions es i = if 0 < mentions es i then 1 else 0 := by
  induction h with
  | nil => rfl
  | cons hfirst _ ih =>
      rename_i e es _
      by_cases he : e.start ≤ i ∧ i ≤ e.stop
      · have hzero : mentions es i = 0 := by
          refine List.countP_eq_zero.mpr fun e' he' => ?_
          have hapart := hfirst e' he'
          simp only [decide_eq_true_eq]
          omega
        have hone : mentions (e :: es) i = mentions es i + 1 := by
          rw [mentions, List.countP_cons, if_pos (decide_eq_true he)]
          rfl
        rw [hone, hzero]
        rfl
      · have hsame : mentions (e :: es) i = mentions es i := by
          rw [mentions, List.countP_cons, if_neg (by rwa [decide_eq_true_eq])]
          rfl
        rw [hsame]
        exact ih

/-- Lists in which no core is repeated are compared right. -/
theorem compared_of_tidy {a b : Bytes} (ha : Tidy a) (hb : Tidy b) : ComparedRight a b := by
  obtain ⟨es, hwella, hfa, hapart⟩ := ha
  obtain ⟨es', hwellb, hfb, hapart'⟩ := hb
  have hla : IntList a := .inr ⟨es, hwella, hfa⟩
  have hlb : IntList b := .inr ⟨es', hwellb, hfb⟩
  refine compared_of_int_lists hla hlb fun es₁ es₁' ha₁ hb₁ hdenotes i => ?_
  have hmem : 0 < mentions es₁ i ↔ 0 < mentions es₁' i := by
    rw [← mem_denotes, ← mem_denotes, hdenotes]
  have heq := mentions_unique hla hwella ha₁ i
  have heq' := mentions_unique hlb hwellb hb₁ i
  rw [← heq, ← heq', mentions_of_disjoint hapart, mentions_of_disjoint hapart', heq, heq']
  simp only [hmem]

end Rapidsmpf.Bootstrap
