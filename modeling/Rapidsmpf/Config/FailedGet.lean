import Mathlib
import Rapidsmpf.Config.Serialization

/-!
# Calls of `get` that throw

`get` looks its key up with the subscript of the map, before the factory or the cast may throw. A
call that throws leaves the object as it was exactly when the map has had the key before
(`failed_get_iff`); else an option without a string stays behind, which a later insertion takes for
one that is set. `transcript` is what the callers of any copy of an object see, and
`kept_transcript` says that calls that throw for keys of the map could be left out of it.
-/

namespace Rapidsmpf.Config

open Fallible

variable {TypeId : Type} {Val : TypeId → Type} [DecidableEq TypeId]

/-! ## Transcripts -/

/-- The public calls on an object. -/
inductive Call (Val : TypeId → Type) where
  | insert (key optionAsString : Bytes)
  | insertAll (optionsAsStrings : List (Bytes × Bytes))
  | insertTyped (key : Bytes) (t : TypeId) (v : Val t)
  | get (key : Bytes) (t : TypeId) (factory : Bytes → Except Exception (Val t))
  | getStrings
  | serialize

/-- What a call returns or throws. -/
inductive Answer (Val : TypeId → Type) where
  | inserted (b : Bool)
  | count (n : Nat)
  | value (r : Except Exception (Σ t, Val t))
  | strings (options : List (Bytes × Bytes))
  | buffer (r : Except Exception Bytes)

/-- The answer is the exception of a `get`. -/
def Answer.failed : Answer Val → Bool
  | .value (.error _) => true
  | _ => false

/-- The answer of a call, and the object after it. -/
def Options.call (o : Options Val) : Call Val → Answer Val × Options Val
  | .insert key s => (.inserted (o.insertIfAbsent key s).1, (o.insertIfAbsent key s).2)
  | .insertAll options =>
      (.count (o.insertAllIfAbsent options).1, (o.insertAllIfAbsent options).2)
  | .insertTyped key t v =>
      (.inserted (o.insertTypedIfAbsent key t v).1, (o.insertTypedIfAbsent key t v).2)
  | .get key t factory =>
      (.value ((o.get key t factory).1.map fun v => ⟨t, v⟩), (o.get key t factory).2)
  | .getStrings => (.strings o.getStrings, o)
  | .serialize => (.buffer o.serialize, o)

/-- The calls with their answers. -/
def transcript : Options Val → List (Call Val) → List (Call Val × Answer Val)
  | _, [] => []
  | o, c :: calls => (c, (o.call c).1) :: transcript (o.call c).2 calls

/-- The object after a list of calls. -/
def after : Options Val → List (Call Val) → Options Val
  | o, [] => o
  | o, c :: calls => after (o.call c).2 calls

/-- The part of a transcript without the calls of `get` that threw. -/
def kept (o : Options Val) (calls : List (Call Val)) : List (Call Val × Answer Val) :=
  (transcript o calls).filter fun x => !x.2.failed

/-! ## One call -/

/-- The object is as it was: the keys, the strings and the parsed values, and all that can be seen
of it later. -/
def Unchanged (o o' : Options Val) : Prop :=
  o'.entries.Perm o.entries ∧ ∀ calls, transcript o' calls = transcript o calls

omit [DecidableEq TypeId] in
theorem emplace_of_mem {o : Options Val} {key : Bytes} (h : key ∈ o.keys)
    (option : OptionValue Val) : o.emplace key option = (false, o) :=
  dif_pos h

/-- A call that throws leaves what the subscript of the map made. -/
theorem get_eq_error {o o' : Options Val} {key : Bytes} {t : TypeId}
    {factory : Bytes → Except Exception (Val t)} {e : Exception}
    (h : o.get key t factory = (.error e, o')) : o' = (o.emplace key {}).2 := by
  simp only [Options.get] at h
  split at h
  · split at h
    · cases h
    · next heq => exact (congrArg Prod.snd h).symm
  · split at h
    · cases h
    · exact (congrArg Prod.snd h).symm

/-- A call of `get` that throws changes nothing exactly when the map has had the key. -/
theorem failed_get_iff {o o' : Options Val} {key : Bytes} {t : TypeId}
    {factory : Bytes → Except Exception (Val t)} {e : Exception}
    (h : o.get key t factory = (.error e, o')) : Unchanged o o' ↔ key ∈ o.keys := by
  obtain rfl := get_eq_error h
  constructor
  · intro hsame
    have hkeys : key ∈ (o.emplace key {}).2.keys := Options.mem_keys_emplace.mpr (.inr rfl)
    exact (hsame.1.map Prod.fst).mem_iff.mp hkeys
  · intro hkey
    rw [emplace_of_mem hkey]
    exact ⟨.refl _, fun _ => rfl⟩

/-! ## Runs -/

/-- The map has the key of a call of `get`. -/
def Call.KeyHeld (o : Options Val) : Call Val → Prop
  | .get key _ _ => key ∈ o.keys
  | _ => True

/-- Every call of `get` that throws in the course of a run is for a key of the map. -/
def FailuresHeld : Options Val → List (Call Val) → Prop
  | _, [] => True
  | o, c :: calls =>
      ((o.call c).1.failed = true → c.KeyHeld o) ∧ FailuresHeld (o.call c).2 calls

theorem call_of_failed {o : Options Val} {c : Call Val} (h : (o.call c).1.failed = true)
    (hheld : c.KeyHeld o) : (o.call c).2 = o := by
  cases c with
  | get key t factory =>
      obtain ⟨e, he⟩ : ∃ e, (o.get key t factory).1 = .error e := by
        cases hr : (o.get key t factory).1 with
        | error e => exact ⟨e, rfl⟩
        | ok v =>
            simp only [Options.call, hr] at h
            cases h
      have hget : o.get key t factory = (.error e, (o.get key t factory).2) := by rw [← he]
      show (o.get key t factory).2 = o
      rw [get_eq_error hget, emplace_of_mem hheld]
  | insert | insertAll | insertTyped | getStrings | serialize => cases h

/-- The calls that threw may be left out, and the others answer what they did. -/
theorem kept_transcript {o : Options Val} {calls : List (Call Val)} (h : FailuresHeld o calls) :
    transcript o ((kept o calls).map Prod.fst) = kept o calls ∧
      after o ((kept o calls).map Prod.fst) = after o calls := by
  induction calls generalizing o with
  | nil => exact ⟨rfl, rfl⟩
  | cons c calls ih =>
      obtain ⟨hone, hrest⟩ := h
      obtain ⟨htranscript, hafter⟩ := ih hrest
      by_cases hfailed : (o.call c).1.failed = true
      · have hsame := call_of_failed hfailed (hone hfailed)
        have hkept : kept o (c :: calls) = kept (o.call c).2 calls :=
          List.filter_cons_of_neg (by simp [hfailed])
        rw [hkept]
        rw [hsame] at htranscript hafter ⊢
        refine ⟨htranscript, hafter.trans ?_⟩
        rw [after, hsame]
      · have hkept : kept o (c :: calls) = (c, (o.call c).1) :: kept (o.call c).2 calls :=
          List.filter_cons_of_pos (by simp [hfailed])
        rw [hkept, List.map_cons, transcript, after, after, htranscript, hafter]
        exact ⟨rfl, rfl⟩

/-- A `get` that throws is transparent exactly when the map has had its key; and as long as the
calls that throw are for keys of the map, nobody can tell that they were made. -/
theorem get_transparent_iff (o : Options Val) :
    (∀ (key : Bytes) (t : TypeId) (factory : Bytes → Except Exception (Val t)) (e : Exception)
      (o' : Options Val), o.get key t factory = (.error e, o') →
        (Unchanged o o' ↔ key ∈ o.keys)) ∧
    ∀ calls : List (Call Val), FailuresHeld o calls →
      transcript o ((kept o calls).map Prod.fst) = kept o calls ∧
        after o ((kept o calls).map Prod.fst) = after o calls :=
  ⟨fun _ _ _ _ _ h => failed_get_iff h, fun _ h => kept_transcript h⟩

/-- A factory that throws. -/
def refuse : Bytes → Except Exception (Numbers ()) := fun _ => .error (.ofFactory "not a number")

theorem get_transparent_log :
    Unchanged logOption (logOption.get [108, 111, 103] () refuse).2 ∧
      transcript logOption [.getStrings] =
        kept logOption [.get [108, 111, 103] () refuse, .getStrings] :=
  ⟨((get_transparent_iff logOption).1 [108, 111, 103] () refuse _ _ rfl).mpr (by decide),
    ((get_transparent_iff logOption).2 [.get [108, 111, 103] () refuse, .getStrings]
      ⟨fun _ => by show _ ∈ logOption.keys; decide, nofun, trivial⟩).1⟩

/-- A `get` that throws for a new key leaves an option without a string: a later insertion does
not take place. -/
theorem failed_get_leaves_key :
    (system Numbers).Reachable (some .empty) ∧
      (Options.empty.get [108, 111, 103] () refuse).1 = .error (.ofFactory "not a number") ∧
      ¬ Unchanged Options.empty (Options.empty.get [108, 111, 103] () refuse).2 ∧
      ((Options.empty : Options Numbers).insertIfAbsent [108, 111, 103] [49]).1 = true ∧
      ((Options.empty.get [108, 111, 103] () refuse).2.insertIfAbsent [108, 111, 103] [49]).1 =
        false := by
  refine ⟨?_, rfl, ?_, rfl, rfl⟩
  · exact .step (l := .construct []) (.init rfl) trivial ⟨.empty, .empty, rfl, .refl _, rfl⟩
  · intro h
    exact absurd h.1.length_eq (by decide)

end Rapidsmpf.Config
