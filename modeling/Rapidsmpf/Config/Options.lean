import Mathlib
import Rapidsmpf.Lib.Fallible
import Rapidsmpf.Lib.Transition
import Rapidsmpf.Memory.Buffer

/-!
# Options

`config.cpp` and `config.hpp`: a map of option values under keys that are trimmed and converted to
lower case. An option keeps its string until `get` parses it; `get` takes its key as it is given.
`system` is one object from its construction on, under any sequence of public operations, with
factories that return or throw; `tidy_iff` says which runs leave only keys that are their own
normal form and not empty.

The iteration order of a `std::unordered_map` is not specified: a map is a list of entries, and
every step of `system` may leave them in any order.
-/

namespace Rapidsmpf.Config

open Fallible Protocol

/-! ## Strings -/

/-- `std::isspace`, of the C locale. -/
def isSpace (c : UInt8) : Bool := c = 32 || (9 ≤ c && c ≤ 13)

/-- `std::tolower`, of the C locale. -/
def lower (c : UInt8) : UInt8 := if 65 ≤ c ∧ c ≤ 90 then c + 32 else c

/-- `trim`: the extraction of a string from a stream skips white space and stops at the next. -/
def trim (text : Bytes) : Bytes :=
  (text.dropWhile isSpace).takeWhile (fun c => !isSpace c)

/-- `to_lower`. -/
def toLower (text : Bytes) : Bytes := text.map lower

/-- What the keys of an insertion are replaced by. -/
def normalise (key : Bytes) : Bytes := toLower (trim key)

theorem lower_lower (c : UInt8) : lower (lower c) = lower c := by
  unfold lower
  split
  case isTrue hupper =>
    rw [if_neg]
    simp only [UInt8.le_iff_toNat_le, UInt8.toNat_add, UInt8.reduceToNat] at hupper ⊢
    omega
  case isFalse => rfl

theorem is_space_lower (c : UInt8) : isSpace (lower c) = isSpace c := by
  unfold lower
  split
  case isTrue hupper =>
    -- neither an upper case letter nor its lower case is a space
    rw [Bool.eq_iff_iff]
    simp only [isSpace, Bool.or_eq_true, Bool.and_eq_true, decide_eq_true_eq,
      UInt8.le_iff_toNat_le, ← UInt8.toNat_inj, UInt8.toNat_add, UInt8.reduceToNat] at hupper ⊢
    omega
  case isFalse => rfl

/-- A word is trimmed already. -/
theorem trim_of_word {text : Bytes} (h : ∀ c ∈ text, isSpace c = false) : trim text = text := by
  have hdrop : text.dropWhile isSpace = text := by
    cases text with
    | nil => rfl
    | cons c text => rw [List.dropWhile_cons_of_neg (by simp [h c List.mem_cons_self])]
  rw [trim, hdrop, List.takeWhile_eq_self_iff]
  intro c hc
  rw [h c hc, Bool.not_false]

theorem normalise_word {key : Bytes} {c : UInt8} (hc : c ∈ normalise key) : isSpace c = false := by
  obtain ⟨b, hb, rfl⟩ := List.mem_map.mp hc
  rw [is_space_lower]
  simpa using List.mem_takeWhile_imp hb

/-- Normal forms are their own normal form. -/
theorem normalise_normalise (key : Bytes) : normalise (normalise key) = normalise key := by
  have htrim : trim (normalise key) = normalise key := trim_of_word fun c hc => normalise_word hc
  calc normalise (normalise key) = toLower (normalise key) := by rw [normalise, htrim]
    _ = normalise key := by simp [normalise, toLower, lower_lower]

/-! ## The map -/

/-- Byte strings are compared byte by byte. -/
instance : LawfulBEq Bytes := inferInstance

/-- What the calls throw. The exceptions of a factory are its own. -/
inductive Exception where
  | invalidArgument (what : String)
  | optionAlreadySet (key : Bytes)
  | outOfRange (what : String)
  | ofFactory (what : String)
deriving DecidableEq

variable {TypeId : Type} {Val : TypeId → Type}

/-- `OptionValue`: the parsed value, with its type, and the string representation. -/
structure OptionValue (Val : TypeId → Type) where
  value : Option (Σ t, Val t) := none
  valueAsString : Bytes := []

/-- `OptionValue::OptionValue`, from a string. -/
def OptionValue.ofString (s : Bytes) : OptionValue Val := { valueAsString := s }

/-- `OptionValue::OptionValue`, from a typed value. -/
def OptionValue.ofTyped (t : TypeId) (v : Val t) : OptionValue Val := { value := some ⟨t, v⟩ }

/-- The entries of `SharedOptions::options`, in the order of an iteration. -/
structure Options (Val : TypeId → Type) where
  entries : List (Bytes × OptionValue Val)
  nodup : (entries.map Prod.fst).Nodup

namespace Options

/-- The keys of the map. -/
def keys (o : Options Val) : List Bytes := o.entries.map Prod.fst

/-- `get_strings`. -/
def getStrings (o : Options Val) : List (Bytes × Bytes) :=
  o.entries.map fun e => (e.1, e.2.valueAsString)

@[simp] theorem map_fst_get_strings (o : Options Val) : o.getStrings.map Prod.fst = o.keys := by
  simp [getStrings, keys]

/-- The map without entries. -/
def empty : Options Val := ⟨[], List.nodup_nil⟩

/-- `emplace` and `try_emplace` of the map: whether the key was new. -/
def emplace (o : Options Val) (key : Bytes) (option : OptionValue Val) : Bool × Options Val :=
  if h : key ∈ o.keys then (false, o)
  else (true, ⟨o.entries ++ [(key, option)], by
    rw [List.map_append, List.nodup_append]
    refine ⟨o.nodup, by simp, ?_⟩
    rintro a ha b hb rfl
    obtain rfl : a = key := List.mem_singleton.mp hb
    exact h ha⟩)

/-- One option of a construction. -/
def place (o : Options Val) (e : Bytes × OptionValue Val) : Except Exception (Options Val) :=
  let (inserted, o') := o.emplace (normalise e.1) e.2
  if inserted then pure o' else throw (.optionAlreadySet e.1)

/-- `Options::Options`, from option values. -/
def ofOptionValues (options : List (Bytes × OptionValue Val)) : Except Exception (Options Val) :=
  options.foldlM place empty

/-- `Options::Options`, from strings. -/
def ofStrings (optionsAsStrings : List (Bytes × Bytes)) : Except Exception (Options Val) :=
  ofOptionValues (optionsAsStrings.map fun e => (e.1, .ofString e.2))

/-- `insert_if_absent`. -/
def insertIfAbsent (o : Options Val) (key optionAsString : Bytes) : Bool × Options Val :=
  o.emplace (normalise key) (.ofString optionAsString)

/-- `insert_if_absent` of several options: the number of them that were inserted. -/
def insertAllIfAbsent (o : Options Val) (optionsAsStrings : List (Bytes × Bytes)) :
    Nat × Options Val :=
  optionsAsStrings.foldl (fun acc e =>
    let (inserted, o') := acc.2.insertIfAbsent e.1 e.2
    (if inserted then acc.1 + 1 else acc.1, o')) (0, o)

/-- `insert_if_absent` of a typed value. -/
def insertTypedIfAbsent (o : Options Val) (key : Bytes) (t : TypeId) (v : Val t) :
    Bool × Options Val :=
  o.emplace (normalise key) (.ofTyped t v)

/-- The option at a key that is in the map. -/
def optionAt (o : Options Val) (key : Bytes) : OptionValue Val := (o.entries.lookup key).getD {}

/-- `OptionValue::set_value` of the option at a key, which has no value yet. -/
def setValue (o : Options Val) (key : Bytes) (v : Σ t, Val t) : Options Val :=
  ⟨o.entries.map fun e => (e.1, if e.1 = key then { e.2 with value := some v } else e.2), by
    rw [List.map_map]
    exact o.nodup⟩

end Options

/-- The bytes of a string literal. -/
def literal (s : String) : Bytes := s.toUTF8.data.toList

/-- `DEFAULTS`. -/
def defaults : List (Bytes × Bytes) :=
  [("statistics", "false"),
   ("pinned_memory", "false"),
   ("pinned_initial_pool_size", "0%"),
   ("pinned_max_pool_size", "80%"),
   ("spill_device_limit", "80%"),
   ("spill_host_limit", "disabled"),
   ("periodic_spill_check", "1ms"),
   ("num_streams", "16"),
   ("num_streaming_threads", "1"),
   ("memory_reserve_timeout", "100ms"),
   ("allow_overbooking_by_default", "true"),
   ("log", "WARN"),
   ("ucxx_progress_mode", "thread-blocking"),
   ("disk_spill_dir", "false")].map fun e => (literal e.1, literal e.2)

/-- The string a factory is given for an option. -/
def effective (key stored : Bytes) : Bytes :=
  match defaults.lookup key with
  | some default => if stored.isEmpty then default else stored
  | none => stored

namespace Options

variable [DecidableEq TypeId]

/-- `get`: the subscript of the map creates an entry for a key that has none, before the factory
is called. -/
def get (o : Options Val) (key : Bytes) (t : TypeId) (factory : Bytes → Except Exception (Val t)) :
    Except Exception (Val t) × Options Val :=
  let o' := (o.emplace key {}).2
  let option := o'.optionAt key
  match option.value with
  | none =>
      match factory (effective key option.valueAsString) with
      | .ok v => (.ok v, o'.setValue key ⟨t, v⟩)
      | .error e => (.error e, o')
  | some ⟨t', v⟩ =>
      if h : t' = t then (.ok (h ▸ v), o')
      else (.error (.invalidArgument "accessing option with incompatible template type"), o')

end Options

/-! ## The keys after an operation -/

namespace Options

theorem mem_keys_emplace {o : Options Val} {key k : Bytes} {option : OptionValue Val} :
    k ∈ (o.emplace key option).2.keys ↔ k ∈ o.keys ∨ k = key := by
  unfold emplace
  split
  case isTrue hkey =>
    exact ⟨.inl, fun h => h.elim id fun heq => heq ▸ hkey⟩
  case isFalse => simp [keys]

theorem keys_set_value (o : Options Val) (key : Bytes) (v : Σ t, Val t) :
    (o.setValue key v).keys = o.keys := by
  simp [keys, setValue]

/-- A construction that does not throw stores the options in order. -/
theorem of_option_values_eq_ok {options : List (Bytes × OptionValue Val)} {o : Options Val} :
    ofOptionValues options = .ok o ↔
      o.entries = options.map fun e => (normalise e.1, e.2) := by
  suffices hloop : ∀ o₀ : Options Val, options.foldlM place o₀ = .ok o ↔
      o.entries = o₀.entries ++ options.map fun e => (normalise e.1, e.2) by
    exact hloop empty
  induction options with
  | nil =>
      intro o₀
      rw [List.foldlM_nil, pure_eq_ok, List.map_nil, List.append_nil]
      constructor
      · rintro rfl
        rfl
      · intro heq
        cases o
        cases o₀
        congr 1
        exact heq.symm
  | cons e options ih =>
      intro o₀
      rw [List.foldlM_cons, bind_eq_ok]
      by_cases hkey : normalise e.1 ∈ o₀.keys
      · have hthrow : o₀.place e = .error (.optionAlreadySet e.1) := by
          simp [place, emplace, hkey, throw, throwThe, MonadExceptOf.throw]
        simp only [hthrow, reduceCtorEq, false_and, exists_false, false_iff]
        intro heq
        have hnodup := o.nodup
        rw [heq, List.map_append, List.nodup_append] at hnodup
        exact hnodup.2.2 _ hkey _ (by simp) rfl
      · simp only [place, emplace, dif_neg hkey, if_true, pure_eq_ok, exists_eq_left', ih,
          List.map_cons, List.append_assoc, List.singleton_append]

theorem of_strings_eq_ok {options : List (Bytes × Bytes)} {o : Options Val} :
    ofStrings options = .ok o ↔
      o.entries = options.map fun e => (normalise e.1, .ofString e.2) := by
  rw [ofStrings, of_option_values_eq_ok, List.map_map]
  rfl

theorem mem_keys_insert_all {o : Options Val} {options : List (Bytes × Bytes)} {k : Bytes} :
    k ∈ (o.insertAllIfAbsent options).2.keys ↔
      k ∈ o.keys ∨ k ∈ options.map fun e => normalise e.1 := by
  unfold insertAllIfAbsent
  generalize hacc : (0, o) = acc
  obtain rfl : o = acc.2 := by rw [← hacc]
  clear hacc
  induction options generalizing acc with
  | nil => simp
  | cons e options ih =>
      rw [List.foldl_cons, ih]
      simp only [insertIfAbsent, mem_keys_emplace, List.map_cons, List.mem_cons, or_assoc]

theorem mem_keys_get [DecidableEq TypeId] {o : Options Val} {key k : Bytes} {t : TypeId}
    {factory : Bytes → Except Exception (Val t)} :
    k ∈ (o.get key t factory).2.keys ↔ k ∈ o.keys ∨ k = key := by
  simp only [get]
  split
  · split
    · rw [keys_set_value, mem_keys_emplace]
    · exact mem_keys_emplace
  · split
    · exact mem_keys_emplace
    · exact mem_keys_emplace

end Options

/-! ## Runs -/

/-- The public operations that make an object or change it. -/
inductive Operation (Val : TypeId → Type) where
  | construct (options : List (Bytes × OptionValue Val))
  | constructFromStrings (optionsAsStrings : List (Bytes × Bytes))
  | insert (key optionAsString : Bytes)
  | insertAll (optionsAsStrings : List (Bytes × Bytes))
  | insertTyped (key : Bytes) (t : TypeId) (v : Val t)
  | get (key : Bytes) (t : TypeId) (factory : Bytes → Except Exception (Val t))

/-- The keys under which an operation stores options that are absent. -/
def Operation.keys : Operation Val → List Bytes
  | .construct options => options.map fun e => normalise e.1
  | .constructFromStrings optionsAsStrings => optionsAsStrings.map fun e => normalise e.1
  | .insert key _ => [normalise key]
  | .insertAll optionsAsStrings => optionsAsStrings.map fun e => normalise e.1
  | .insertTyped key _ _ => [normalise key]
  | .get key _ _ => [key]

section

variable [DecidableEq TypeId]

/-- The object after an operation. A construction that throws makes none, and nothing is done to
an object that is not there. -/
def perform : Option (Options Val) → Operation Val → Option (Options Val)
  | none, .construct options => (Options.ofOptionValues options).toOption
  | none, .constructFromStrings optionsAsStrings => (Options.ofStrings optionsAsStrings).toOption
  | some o, .insert key optionAsString => some (o.insertIfAbsent key optionAsString).2
  | some o, .insertAll optionsAsStrings => some (o.insertAllIfAbsent optionsAsStrings).2
  | some o, .insertTyped key t v => some (o.insertTypedIfAbsent key t v).2
  | some o, .get key t factory => some (o.get key t factory).2
  | _, _ => none

/-- One object, from its construction on. -/
def system (Val : TypeId → Type) : System (Option (Options Val)) (Operation Val) where
  init s := s = none
  step s op s' := ∃ o o', perform s op = some o ∧ o'.entries.Perm o.entries ∧ s' = some o'

/-- The keys of an object, if there is one. -/
def held (s : Option (Options Val)) : List Bytes := (s.map Options.keys).getD []

theorem mem_keys_perform {s : Option (Options Val)} {op : Operation Val} {o : Options Val}
    (h : perform s op = some o) (k : Bytes) : k ∈ o.keys ↔ k ∈ held s ∨ k ∈ op.keys := by
  cases s with
  | none =>
      cases op with
      | construct options =>
          rw [perform, to_option_eq_some, Options.of_option_values_eq_ok] at h
          simp [held, Operation.keys, Options.keys, h]
      | constructFromStrings options =>
          rw [perform, to_option_eq_some, Options.of_strings_eq_ok] at h
          simp [held, Operation.keys, Options.keys, h]
      | insert | insertAll | insertTyped | get => cases h
  | some o₀ =>
      have hheld : held (some o₀) = o₀.keys := rfl
      cases op with
      | construct | constructFromStrings => cases h
      | insert key s =>
          cases h
          rw [Options.insertIfAbsent, Options.mem_keys_emplace, hheld, Operation.keys,
            List.mem_singleton]
      | insertAll options =>
          cases h
          rw [Options.mem_keys_insert_all, hheld, Operation.keys]
      | insertTyped key t v =>
          cases h
          rw [Options.insertTypedIfAbsent, Options.mem_keys_emplace, hheld, Operation.keys,
            List.mem_singleton]
      | get key t factory =>
          cases h
          rw [Options.mem_keys_get, hheld, Operation.keys, List.mem_singleton]

/-- A step adds the keys of its operation. -/
theorem mem_held_step {s s' : Option (Options Val)} {op : Operation Val}
    (h : (system Val).step s op s') (k : Bytes) : k ∈ held s' ↔ k ∈ held s ∨ k ∈ op.keys := by
  obtain ⟨o, o', hperform, hperm, rfl⟩ := h
  rw [← mem_keys_perform hperform]
  exact (hperm.map Prod.fst).mem_iff

/-- A key that is trimmed, in lower case and not empty. -/
def Tidy (key : Bytes) : Prop := key ≠ [] ∧ normalise key = key

/-- An operation that stores nothing under a key that is not tidy. -/
def TidyStep (s : Option (Options Val)) (op : Operation Val) : Prop :=
  ∀ k ∈ op.keys, k ∈ held s ∨ Tidy k

/-- The runs all of whose operations are tidy are those that end with tidy keys. -/
theorem tidy_iff {s : Option (Options Val)} (h : (system Val).Reachable s) :
    (system Val).Reach TidyStep s ↔ ∀ k ∈ held s, Tidy k := by
  constructor
  · intro htidy
    refine System.Reach.invariant (I := fun s => ∀ k ∈ held s, Tidy k) ?_ ?_ htidy
    · rintro s rfl k hk
      cases hk
    · intro s op s' hs hop hstep k hk
      rcases (mem_held_step hstep k).mp hk with hold | hnew
      · exact hs k hold
      · exact (hop k hnew).elim (hs k) id
  · -- keys stay, so the keys of the states before are among those of the last one
    induction h with
    | init hinit => exact fun _ => .init hinit
    | step _ _ hstep ih =>
        intro htidy
        have hkeys := mem_held_step hstep
        exact .step (ih fun k hk => htidy k ((hkeys k).mpr (.inl hk)))
          (fun k hk => .inr (htidy k ((hkeys k).mpr (.inr hk)))) hstep

end

end Rapidsmpf.Config
