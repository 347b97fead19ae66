import Mathlib
import Rapidsmpf.Lib.Fallible

/-!
# Computations that leave a trace

A computation that may fail, together with the events on its way, whether it fails or not: what it
reads, what it allocates, what it computes. `Ensures m E X P` says that all events satisfy `E`, an
exception satisfies `X` and a value satisfies `P`; its rules follow the way in which the
computation is composed. `mem_events_bind` is what is needed to find an event in a composition.
-/

open Fallible

universe u

/-- The events of a computation, and how it ends. -/
structure Traced (ω : Type) (ε : Type) (α : Type u) where
  events : List ω
  outcome : Except ε α

namespace Traced

variable {ω ε : Type} {α β : Type u}

/-- Do nothing. -/
protected def pure (a : α) : Traced ω ε α := ⟨[], .ok a⟩

/-- One computation after the other, unless the first one fails. -/
protected def bind (m : Traced ω ε α) (f : α → Traced ω ε β) : Traced ω ε β :=
  match m.outcome with
  | .ok a => ⟨m.events ++ (f a).events, (f a).outcome⟩
  | .error x => ⟨m.events, .error x⟩

instance : Monad (Traced ω ε) where
  pure := Traced.pure
  bind := Traced.bind

/-- One event. -/
def note (e : ω) : Traced ω ε PUnit := ⟨[e], .ok ⟨⟩⟩

/-- An exception. -/
def fail (x : ε) : Traced ω ε α := ⟨[], .error x⟩

/-- An exception unless a condition holds. -/
def check (p : Prop) [Decidable p] (x : ε) : Traced ω ε PUnit :=
  if p then pure ⟨⟩ else fail x

/-- A computation without events. -/
def ofExcept (r : Except ε α) : Traced ω ε α := ⟨[], r⟩

/-- A loop over the numbers from `i` on. -/
def loop (step : Nat → β → Traced ω ε β) : (n i : Nat) → β → Traced ω ε β
  | 0, _, b => pure b
  | n + 1, i, b => step i b >>= loop step n (i + 1)

/-! ## Outcomes and events of compositions -/

@[simp] theorem outcome_pure (a : α) : (pure a : Traced ω ε α).outcome = .ok a := rfl

@[simp] theorem outcome_note (e : ω) : (note e : Traced ω ε PUnit).outcome = .ok ⟨⟩ := rfl

@[simp] theorem outcome_fail (x : ε) : (fail x : Traced ω ε α).outcome = .error x := rfl

theorem outcome_check (p : Prop) [Decidable p] (x : ε) :
    (check p x : Traced ω ε PUnit).outcome = if p then .ok ⟨⟩ else .error x := by
  rw [check]
  split <;> rfl

@[simp] theorem outcome_bind (m : Traced ω ε α) (f : α → Traced ω ε β) :
    (m >>= f).outcome = m.outcome >>= fun a => (f a).outcome := by
  show (Traced.bind m f).outcome = _
  rw [Traced.bind]
  cases m.outcome <;> rfl

theorem mem_events_bind {m : Traced ω ε α} {f : α → Traced ω ε β} {e : ω} :
    e ∈ (m >>= f).events ↔ e ∈ m.events ∨ ∃ a, m.outcome = .ok a ∧ e ∈ (f a).events := by
  show e ∈ (Traced.bind m f).events ↔ _
  rw [Traced.bind]
  cases m.outcome <;> simp

/-- An event behind a part that succeeds. -/
theorem mem_events_of_ok {m : Traced ω ε α} {f : α → Traced ω ε β} {a : α} {e : ω}
    (h : m.outcome = .ok a) (he : e ∈ (f a).events) : e ∈ (m >>= f).events :=
  mem_events_bind.mpr (.inr ⟨a, h, he⟩)

/-- The outcome behind a part that succeeds. -/
theorem outcome_of_ok {m : Traced ω ε α} {f : α → Traced ω ε β} {a : α}
    (h : m.outcome = .ok a) : (m >>= f).outcome = (f a).outcome := by
  rw [outcome_bind, h]
  rfl

/-- An exception ends the composition. -/
theorem outcome_of_error {m : Traced ω ε α} {f : α → Traced ω ε β} {x : ε}
    (h : m.outcome = .error x) : (m >>= f).outcome = .error x := by
  rw [outcome_bind, h]
  rfl

/-! ## Triples -/

/-- All events, an exception and the value have their property. -/
structure Ensures (m : Traced ω ε α) (E : ω → Prop) (X : ε → Prop) (P : α → Prop) : Prop where
  events : ∀ e ∈ m.events, E e
  throws : ∀ x, m.outcome = .error x → X x
  returns : ∀ a, m.outcome = .ok a → P a

namespace Ensures

variable {E : ω → Prop} {X : ε → Prop} {P : α → Prop} {Q : β → Prop}

theorem pure {a : α} (h : P a) : Ensures (pure a) E X P where
  events := fun _ he => nomatch he
  throws := fun _ hx => nomatch hx
  returns := by
    intro b hb
    cases hb
    exact h

theorem note {e : ω} {P : PUnit → Prop} (he : E e) (h : P ⟨⟩) : Ensures (note e) E X P where
  events := fun _ he' => (List.mem_singleton.mp he').symm ▸ he
  throws := fun _ hx => nomatch hx
  returns := fun _ _ => h

theorem fail {x : ε} (h : X x) : Ensures (fail x) E X P where
  events := fun _ he => nomatch he
  throws := by
    intro y hy
    cases hy
    exact h
  returns := fun _ ha => nomatch ha

theorem bind {m : Traced ω ε α} {f : α → Traced ω ε β} (hm : Ensures m E X P)
    (hf : ∀ a, P a → Ensures (f a) E X Q) : Ensures (m >>= f) E X Q where
  events := by
    intro e he
    rcases mem_events_bind.mp he with he | ⟨a, ha, he⟩
    · exact hm.events e he
    · exact (hf a (hm.returns a ha)).events e he
  throws := by
    intro x hx
    rw [outcome_bind, bind_eq_error] at hx
    rcases hx with hx | ⟨a, ha, hx⟩
    · exact hm.throws x hx
    · exact (hf a (hm.returns a ha)).throws x hx
  returns := by
    intro b hb
    rw [outcome_bind, bind_eq_ok] at hb
    obtain ⟨a, ha, hb⟩ := hb
    exact (hf a (hm.returns a ha)).returns b hb

/-- A check at the head of a sequence. -/
theorem check_bind {p : Prop} [Decidable p] {x : ε} {f : PUnit → Traced ω ε β}
    (hx : ¬ p → X x) (hf : p → Ensures (f ⟨⟩) E X Q) : Ensures (check p x >>= f) E X Q := by
  refine bind (P := fun _ => p) ?_ fun _ hp => hf hp
  rw [check]
  split
  · next hp => exact pure hp
  · next hp => exact fail (hx hp)

/-- An event at the head of a sequence. -/
theorem note_bind {e : ω} {f : PUnit → Traced ω ε β} (he : E e) (hf : Ensures (f ⟨⟩) E X Q) :
    Ensures (Traced.note e >>= f) E X Q :=
  bind (P := fun _ => True) (note he trivial) fun _ _ => hf

theorem mono {m : Traced ω ε α} {P' : α → Prop} (hm : Ensures m E X P) (h : ∀ a, P a → P' a) :
    Ensures m E X P' :=
  ⟨hm.events, hm.throws, fun a ha => h a (hm.returns a ha)⟩

theorem mono_throws {m : Traced ω ε α} {Y : ε → Prop} (hm : Ensures m E X P)
    (h : ∀ x, X x → Y x) : Ensures m E Y P :=
  ⟨hm.events, fun x hx => h x (hm.throws x hx), hm.returns⟩

/-- A part whose value is known, at the head of a sequence. -/
theorem known_bind {m : Traced ω ε α} {f : α → Traced ω ε β} {a : α} (hm : Ensures m E X (· = a))
    (hf : Ensures (f a) E X Q) : Ensures (m >>= f) E X Q := by
  refine bind hm fun b hb => ?_
  obtain rfl : b = a := hb
  exact hf

/-- Loop rule: an invariant of every round, given the number of rounds before it. -/
theorem loop {step : Nat → β → Traced ω ε β} {I : Nat → β → Prop} {n i : Nat} {b : β} (hb : I i b)
    (hstep : ∀ j b, i ≤ j → j < i + n → I j b → Ensures (step j b) E X (I (j + 1))) :
    Ensures (loop step n i b) E X (I (i + n)) := by
  induction n generalizing i b with
  | zero => exact pure hb
  | succ n ih =>
      refine bind (hstep i b le_rfl (by omega) hb) fun b' hb' => ?_
      have hrest := ih hb' fun j c hij hj hc => hstep j c (by omega) (by omega) hc
      rwa [Nat.add_right_comm, Nat.add_assoc i n 1] at hrest

end Ensures

end Traced
