import Mathlib
import Rapidsmpf.Lib.Run

/-!
# An atomic key-value store

Clients put and get values, each client one call after the other. A call takes effect at one moment
between its beginning and its end: a put replaces the value of its key, and a get finds the value
that the key has or misses it. `Turns` are the histories of one client, and `find_latest` says what
a get finds.
-/

namespace AtomicStore

open Protocol

variable {C K V : Type*}

inductive Call (K V : Type*) where
  | put (key : K) (value : V)
  | get (key : K)

/-- What a call ends with. No call of this store ends with `failed`. -/
inductive Answer (V : Type*) where
  | stored
  | value (value : V)
  | missed
  | failed

/-- The beginning of a call, its effect or its end. -/
inductive Event (K V : Type*) where
  | call (x : Call K V)
  | store (key : K) (value : V)
  | find (key : K) (value : V)
  | miss (key : K)
  | finish (answer : Answer V)

/-- Where a client is: the call it has made, or the answer to it. -/
inductive Phase (K V : Type*) where
  | idle
  | called (x : Call K V)
  | answered (answer : Answer V)

/-- The events of one client. A call has one effect, its own, and then the answer to it. -/
inductive Turn : Phase K V → Event K V → Phase K V → Prop where
  | call (x : Call K V) : Turn .idle (.call x) (.called x)
  | store (key : K) (value : V) :
      Turn (.called (.put key value)) (.store key value) (.answered .stored)
  | find (key : K) (value : V) :
      Turn (.called (.get key)) (.find key value) (.answered (.value value))
  | miss (key : K) : Turn (.called (.get key)) (.miss key) (.answered .missed)
  | finish (answer : Answer V) : Turn (.answered answer) (.finish answer) .idle

/-- The histories of one client. -/
inductive Turns : List (Event K V) → Phase K V → Prop where
  | nil : Turns [] .idle
  | snoc {es : List (Event K V)} {e : Event K V} {p p' : Phase K V} :
      Turns es p → Turn p e p' → Turns (es ++ [e]) p'

theorem Turns.phase_ne_failed {es : List (Event K V)} {p : Phase K V} (h : Turns es p) :
    p ≠ .answered .failed := by
  cases h with
  | nil => exact nofun
  | snoc _ hturn =>
      rintro rfl
      cases hturn

/-- No call fails. -/
theorem Turns.not_failed {es : List (Event K V)} {p : Phase K V} (h : Turns es p) :
    Event.finish .failed ∉ es := by
  induction h with
  | nil => exact List.not_mem_nil
  | snoc hbefore hturn ih =>
      intro hmem
      rcases List.mem_append.mp hmem with hmem | hmem
      · exact ih hmem
      · obtain rfl := List.mem_singleton.mp hmem
        cases hturn
        exact hbefore.phase_ne_failed rfl

/-- What an event needs of the store. -/
def Event.Enabled (kv : K → Option V) : Event K V → Prop
  | find key value => kv key = some value
  | miss key => kv key = none
  | _ => True

variable [DecidableEq C] [DecidableEq K]

/-- What an event does to the store. -/
def Event.apply (kv : K → Option V) : Event K V → K → Option V
  | store key value => Function.update kv key (some value)
  | _ => kv

structure State (C K V : Type*) where
  kv : K → Option V
  phase : C → Phase K V

/-- The store and its clients. -/
def system : System (State C K V) (C × Event K V) where
  init s := (∀ key, s.kv key = none) ∧ ∀ c, s.phase c = .idle
  step s l s' := l.2.Enabled s.kv ∧ ∃ p, Turn (s.phase l.1) l.2 p ∧
    s' = ⟨l.2.apply s.kv, Function.update s.phase l.1 p⟩

/-- The value that an event stores under a key. -/
def Event.stores (key : K) : Event K V → Option V
  | store key' value => if key' = key then some value else none
  | _ => none

/-- The latest value that was put under a key. -/
def latest (events : List (C × Event K V)) (key : K) : Option V :=
  events.reverse.findSome? fun e => e.2.stores key

/-- The events of one client. -/
def eventsOf (c : C) (events : List (C × Event K V)) : List (Event K V) :=
  (events.filter fun e => decide (e.1 = c)).map Prod.snd

variable {events : List (C × Event K V)} {s : State C K V}

theorem apply_eq_stores (kv : K → Option V) (e : Event K V) (key : K) :
    e.apply kv key = (e.stores key).or (kv key) := by
  cases e with
  | store key' value =>
      show Function.update kv key' (some value) key = (if key' = key then some value else none).or _
      by_cases hkey : key' = key
      · rw [if_pos hkey, hkey, Function.update_self]
        rfl
      · rw [if_neg hkey, Function.update_of_ne (Ne.symm hkey)]
        rfl
  | call | find | miss | finish => rfl

omit [DecidableEq C] in
theorem latest_concat (e : C × Event K V) (key : K) :
    latest (events ++ [e]) key = (e.2.stores key).or (latest events key) := by
  rw [latest, List.reverse_concat, List.findSome?_cons, latest]
  cases e.2.stores key with
  | none => rfl
  | some value => rfl

/-- The store has the latest values. -/
theorem kv_latest (h : system.Run events s) : s.kv = latest events := by
  refine h.invariant (I := fun events s => s.kv = latest events) ?_ ?_
  · rintro s ⟨hkv, -⟩
    exact funext hkv
  · rintro events s l s' ih ⟨-, p, -, rfl⟩
    funext key
    rw [latest_concat, ← ih]
    exact apply_eq_stores s.kv l.2 key

/-- A get finds the latest value of its key. -/
theorem find_latest {before after : List (C × Event K V)} {c : C} {key : K} {value : V}
    (h : system.Run (before ++ (c, .find key value) :: after) s) :
    latest before key = some value := by
  obtain ⟨s₁, s₂, hrun, henabled, -⟩ := h.split
  rw [← kv_latest hrun]
  exact henabled

/-- Each client makes its calls in turns. -/
theorem turns (h : system.Run events s) (c : C) : Turns (eventsOf c events) (s.phase c) := by
  refine h.invariant (I := fun events s => Turns (eventsOf c events) (s.phase c)) ?_ ?_
  · rintro s ⟨-, hidle⟩
    rw [hidle c]
    exact .nil
  · rintro events s l s' ih ⟨-, p, hturn, rfl⟩
    rw [eventsOf, List.filter_append, List.map_append]
    by_cases hc : l.1 = c
    · have hlast : [l].filter (fun e => decide (e.1 = c)) = [l] := by simp [hc]
      rw [hlast]
      rw [hc] at hturn ⊢
      show Turns _ (Function.update s.phase c p c)
      rw [Function.update_self]
      exact .snoc ih hturn
    · have hlast : [l].filter (fun e => decide (e.1 = c)) = [] := by simp [hc]
      rw [hlast]
      show Turns _ (Function.update s.phase l.1 p c)
      rw [Function.update_of_ne (Ne.symm hc), List.map_nil, List.append_nil]
      exact ih

end AtomicStore
