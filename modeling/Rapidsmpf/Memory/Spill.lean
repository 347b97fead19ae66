import Rapidsmpf.Memory.Buffer
import Rapidsmpf.Streaming.Message

/-!
# Spilling one buffer

The calls with which the boxes of chunks spill a buffer: `reserve_or_fail` over the spill targets
and `BufferResource::move`. What the memory resources answer is an `Attempt`; `Effect` is what one
attempt does to the data of a chunk that is on the device.
-/

namespace Rapidsmpf.Memory

open Streaming (spillTargetMemoryTypes)

/-- The exceptions of a spill. -/
inductive SpillFailure where
  /-- failed to reserve memory -/
  | reserve
  /-- The memory resource throws in `make_buffer`. -/
  | allocate
  /-- A check of the chunk fails. -/
  | check (message : String)
deriving DecidableEq, Repr

/-- What the memory resources do when a buffer is spilled: the memory type in which
`reserve_or_fail` gets a reservation, if any, and whether `make_buffer` gets its memory. -/
structure Attempt where
  reserved : Option {t : MemoryType // t ∈ spillTargetMemoryTypes}
  allocates : Bool
deriving DecidableEq

namespace Attempt

/-- `BufferResource::reserve_or_fail` over `SPILL_TARGET_MEMORY_TYPES`. -/
def reserveOrFail (a : Attempt) : Except SpillFailure MemoryType :=
  match a.reserved with
  | some t => pure t.1
  | none => throw .reserve

/-- `BufferResource::move`, which owns the buffer: when `make_buffer` throws it is destroyed. -/
def move (a : Attempt) (b : Buffer) (t : MemoryType) : Except SpillFailure Buffer :=
  if t = b.memType then pure b
  else if a.allocates then pure { b with memType := t }
  else throw .allocate

/-- The attempt gets its reservation and its memory. -/
def Succeeds (a : Attempt) : Prop := a.reserved.isSome ∧ a.allocates = true

instance (a : Attempt) : Decidable a.Succeeds := inferInstanceAs (Decidable (_ ∧ _))

/-- What an attempt makes of the data of a chunk, which was the device buffer `b`, and how it
ends. -/
inductive Effect (a : Attempt) (b : Buffer) : Option Buffer → Except SpillFailure Unit → Prop where
  | moved (t) : a.reserved = some t → a.allocates = true →
      Effect a b (some { b with memType := t.1 }) (.ok ())
  | refused : a.reserved = none → Effect a b (some b) (.error .reserve)
  | lost : a.reserved.isSome → a.allocates = false → Effect a b none (.error .allocate)

theorem target_ne_device (t : {t : MemoryType // t ∈ spillTargetMemoryTypes}) : t.1 ≠ .device := by
  obtain ⟨t, ht⟩ := t
  rintro rfl
  simp [spillTargetMemoryTypes] at ht

theorem Effect.succeeds {a : Attempt} {b : Buffer} {d : Option Buffer}
    (h : a.Effect b d (.ok ())) : a.Succeeds := by
  cases h with
  | moved t hreserved hallocates => exact ⟨by rw [hreserved]; rfl, hallocates⟩

end Attempt

/-- The data of a chunk before and after a spill: untouched, or a device buffer that is now in a
spill target with all its bytes. -/
inductive Kept (before : Option Buffer) : Option Buffer → Prop where
  | untouched : Kept before before
  | moved (b t) : before = some b → b.memType = .device → t ∈ spillTargetMemoryTypes →
      Kept before (some { b with memType := t })

/-- The first attempt that fails does so in the reservation. -/
def FailsReserving (env : Nat → Attempt) : Prop :=
  ∃ k, (∀ j < k, (env j).Succeeds) ∧ (env k).reserved = none

/-- Whether the first failing attempt loses the data of its chunk. -/
theorem Attempt.Effect.kept_iff {env : Nat → Attempt} {k : Nat} {b : Buffer} {d : Option Buffer}
    {e : SpillFailure} (h : (env k).Effect b d (.error e)) (hbefore : ∀ j < k, (env j).Succeeds) :
    Kept (some b) d ↔ FailsReserving env := by
  cases h with
  | refused hnone => exact ⟨fun _ => ⟨k, hbefore, hnone⟩, fun _ => .untouched⟩
  | lost hsome hfalse =>
      constructor
      · intro hkept
        cases hkept
      · rintro ⟨k', hbefore', hnone⟩
        rcases Nat.lt_trichotomy k k' with hlt | rfl | hlt
        · have hallocates := (hbefore' k hlt).2
          rw [hfalse] at hallocates
          exact absurd hallocates Bool.false_ne_true
        · rw [hnone] at hsome
          exact absurd hsome Bool.false_ne_true
        · have hreserved := (hbefore k' hlt).1
          rw [hnone] at hreserved
          exact absurd hreserved Bool.false_ne_true

end Rapidsmpf.Memory
