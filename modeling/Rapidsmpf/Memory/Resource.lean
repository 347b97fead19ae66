import Mathlib
import Rapidsmpf.Memory.Buffer
import Rapidsmpf.Lib.Fallible

/-!
# The counters of a buffer resource

`memory/buffer_resource.cpp` keeps two counters for each memory type: the allocated bytes, which
the memory resources maintain, and the reserved bytes `memory_reserved_`, which `reserve` and
`release` change under `mutex_`. The definitions here are the arithmetic of these functions. The
systems built on them say which of their steps are atomic.

The arithmetic is that of `std::int64_t`: a conversion that does not fit throws, and a signed
operation whose result does not fit has no meaning in C++, which is the failure `undefined` here.
No system has a step with that outcome.
-/

namespace Rapidsmpf.Memory

open Fallible

/-- `AllowOverbooking`. -/
inductive AllowOverbooking where
  | no
  | yes
deriving DecidableEq, Repr

/-- The ways a call on a buffer resource can fail. -/
inductive Failure where
  /-- C++ gives the operation no meaning. -/
  | undefined
  /-- `safe_cast`: value out of range. -/
  | outOfRange
  /-- disk memory was requested but no disk resource is available -/
  | noDiskResource
  /-- pinned memory resource is not available -/
  | noPinnedResource
  /-- MemoryReservation isn't big enough -/
  | notBigEnough
  /-- corrupted reservation stat -/
  | corruptedReservationStat
  /-- failed to spill enough memory -/
  | failedToSpill
  /-- failed to reserve memory -/
  | failedToReserve
  /-- stream must be valid -/
  | invalidStream
  /-- The memory resource, the CUDA runtime, a disk transfer or a spill function failed. -/
  | external
deriving DecidableEq, Repr

/-- What a buffer resource is created with: the limit of each memory type, and whether there is a
pinned memory resource and a disk resource. -/
structure Config where
  limit : MemoryType → Int
  pinned : Bool
  disk : Bool

/-- The result of a signed 64-bit operation, where C++ defines it. -/
def signed (x : Int) : Except Failure Int :=
  if -(2 ^ 63) ≤ x ∧ x < 2 ^ 63 then .ok x else .error .undefined

/-- `safe_cast<std::int64_t>` of a `std::size_t`. -/
def safeCast (size : Nat) : Except Failure Int :=
  if size < 2 ^ 63 then .ok size else .error .outOfRange

/-- `memory_available`, from the bytes that are allocated now. Disk space is not counted. -/
def memoryAvailable (cfg : Config) (allocated : MemoryType → Nat) (t : MemoryType) :
    Except Failure Int :=
  match t with
  | .device => signed (cfg.limit .device - allocated .device)
  | .pinnedHost =>
      if cfg.pinned then signed (cfg.limit .pinnedHost - allocated .pinnedHost) else .ok 0
  | .host => signed (cfg.limit .host - allocated .host)
  | .disk => .ok (if cfg.disk then cfg.limit .disk else 0)

/-- The checks of `reserve` before it samples the available memory. -/
def checkResource (cfg : Config) (t : MemoryType) : Except Failure Unit :=
  if t = .disk ∧ cfg.disk = false then .error .noDiskResource
  else if t = .pinnedHost ∧ cfg.pinned = false then .error .noPinnedResource
  else .ok ()

/-- What is missing when the headroom is negative. -/
def overbookingOf (headroom : Int) : Except Failure Nat :=
  if headroom < 0 then do
    -- std::abs of the least value overflows
    let missing ← signed (-headroom)
    return missing.toNat
  else return 0

/-- What `reserve` decides under the lock, from the sample it took before: the size of the
reservation it makes and the overbooking. -/
def decideReserve (available : Int) (reserved size : Nat) (allow : AllowOverbooking) :
    Except Failure (Nat × Nat) := do
  let counted ← signed ((← safeCast reserved) + (← safeCast size))
  let headroom ← signed (available - counted)
  let overbooking ← overbookingOf headroom
  if 0 < overbooking ∧ allow = .no then
    -- cancel the reservation, overbooking isn't allowed
    return (0, overbooking)
  return (size, overbooking)

/-- `memory_available_for_reservation`, from a sample of the available memory. -/
def availableForReservation (available : Int) (reserved : Nat) : Except Failure Int := do
  signed (available - (← safeCast reserved))

/-- `release`: the reserved bytes and the size of the reservation afterwards. -/
def releaseBytes (reserved held size : Nat) : Except Failure (Nat × Nat) :=
  if size ≤ held then
    if size ≤ reserved then .ok (reserved - size, held - size)
    else .error .corruptedReservationStat
  else .error .notBigEnough

section Specs

variable {available : Int} {reserved held size granted overbooking : Nat}
  {allow : AllowOverbooking}

theorem signed_eq_ok {x y : Int} (h : signed x = .ok y) : y = x := by
  rw [signed] at h
  split at h
  · exact (Except.ok.inj h).symm
  · cases h

theorem safe_cast_eq_ok {x : Int} (h : safeCast size = .ok x) : x = size := by
  rw [safeCast] at h
  split at h
  · exact (Except.ok.inj h).symm
  · cases h

theorem overbooking_of_eq_ok {headroom : Int} (h : overbookingOf headroom = .ok overbooking) :
    (overbooking : Int) = max 0 (-headroom) := by
  rw [overbookingOf] at h
  split at h
  · next hneg =>
      obtain ⟨x, hx, hpure⟩ := bind_eq_ok.mp h
      obtain rfl := signed_eq_ok hx
      obtain rfl := pure_eq_ok.mp hpure
      omega
  · next hpos =>
      obtain rfl := pure_eq_ok.mp h
      omega

/-- What a decision says: the overbooking is what would be missing, and the reservation has the
whole size unless that is refused. -/
theorem decide_reserve_eq_ok
    (h : decideReserve available reserved size allow = .ok (granted, overbooking)) :
    (overbooking : Int) = max 0 (reserved + size - available) ∧
      (granted = size ∧ (0 < overbooking → allow = .yes) ∨
        granted = 0 ∧ 0 < overbooking ∧ allow = .no) := by
  rw [decideReserve] at h
  obtain ⟨r, hr, h₁⟩ := bind_eq_ok.mp h
  obtain ⟨z, hz, h₂⟩ := bind_eq_ok.mp h₁
  obtain ⟨counted, hcounted, h₃⟩ := bind_eq_ok.mp h₂
  obtain ⟨headroom, hheadroom, h₄⟩ := bind_eq_ok.mp h₃
  obtain ⟨excess, hover, hlast⟩ := bind_eq_ok.mp h₄
  obtain rfl := safe_cast_eq_ok hr
  obtain rfl := safe_cast_eq_ok hz
  obtain rfl := signed_eq_ok hcounted
  obtain rfl := signed_eq_ok hheadroom
  have hmissing := overbooking_of_eq_ok hover
  split at hlast
  · next hno =>
      cases pure_eq_ok.mp hlast
      exact ⟨by omega, .inr ⟨rfl, hno⟩⟩
  · next hyes =>
      cases pure_eq_ok.mp hlast
      refine ⟨by omega, .inl ⟨rfl, fun hpos => ?_⟩⟩
      cases allow with
      | no => exact absurd ⟨hpos, rfl⟩ hyes
      | yes => rfl

theorem signed_eq_error {x : Int} {f : Failure} (h : signed x = .error f) : f = .undefined := by
  rw [signed] at h
  split at h
  · cases h
  · exact (Except.error.inj h).symm

theorem safe_cast_eq_error {f : Failure} (h : safeCast size = .error f) : f = .outOfRange := by
  rw [safeCast] at h
  split at h
  · cases h
  · exact (Except.error.inj h).symm

/-- A decision throws only when a number does not fit. -/
theorem decide_reserve_eq_error {f : Failure}
    (h : decideReserve available reserved size allow = .error f) :
    f = .undefined ∨ f = .outOfRange := by
  rw [decideReserve] at h
  rcases bind_eq_error.mp h with hr | ⟨r, -, h₁⟩
  · exact .inr (safe_cast_eq_error hr)
  rcases bind_eq_error.mp h₁ with hz | ⟨z, -, h₂⟩
  · exact .inr (safe_cast_eq_error hz)
  rcases bind_eq_error.mp h₂ with hcounted | ⟨counted, -, h₃⟩
  · exact .inl (signed_eq_error hcounted)
  rcases bind_eq_error.mp h₃ with hheadroom | ⟨headroom, -, h₄⟩
  · exact .inl (signed_eq_error hheadroom)
  rcases bind_eq_error.mp h₄ with hover | ⟨excess, -, hlast⟩
  · rw [overbookingOf] at hover
    split at hover
    · rcases bind_eq_error.mp hover with hmissing | ⟨_, -, hpure⟩
      · exact .inl (signed_eq_error hmissing)
      · cases hpure
    · cases hover
  · split at hlast
    · cases hlast
    · cases hlast

theorem available_for_reservation_eq_ok {x : Int}
    (h : availableForReservation available reserved = .ok x) : x = available - reserved := by
  obtain ⟨r, hr, hsigned⟩ := bind_eq_ok.mp h
  obtain rfl := safe_cast_eq_ok hr
  exact signed_eq_ok hsigned

theorem release_bytes_eq_ok {x : Nat × Nat} (h : releaseBytes reserved held size = .ok x) :
    size ≤ held ∧ size ≤ reserved ∧ x = (reserved - size, held - size) := by
  rw [releaseBytes] at h
  split at h
  · next hheld =>
      split at h
      · next hreserved => exact ⟨hheld, hreserved, (Except.ok.inj h).symm⟩
      · cases h
  · cases h

/-- A counter that covers the reservation is not found corrupted. -/
theorem release_bytes_of_le (hle : held ≤ reserved) :
    releaseBytes reserved held size =
      if size ≤ held then .ok (reserved - size, held - size) else .error .notBigEnough := by
  rw [releaseBytes]
  split
  · next hheld => rw [if_pos (hheld.trans hle)]
  · rfl

end Specs

end Rapidsmpf.Memory
