import Mathlib

/-!
# Buffers and their memory types

The part of `memory/memory_type.hpp` and `memory/buffer.hpp` the communication layer reads: the
memory type of a buffer, its bytes, and its size, which is a `std::size_t`.
-/

namespace Rapidsmpf

/-- The rank of a node, or the number of ranks. -/
abbrev Rank := Nat

/-- A host byte vector. -/
abbrev Bytes := List UInt8

/-- `MemoryType`, in decreasing order of preference. -/
inductive MemoryType where
  | device
  | pinnedHost
  | host
  | disk
deriving DecidableEq, Repr

/-- `ADDRESSABLE_MEMORY_TYPES`: the memory types that expose a host or device pointer. -/
def addressableMemoryTypes : List MemoryType :=
  [.device, .pinnedHost, .host]

/-- `Buffer`: bytes in one memory type. The size of a buffer fits a `std::size_t`. -/
structure Buffer where
  memType : MemoryType
  bytes : Bytes
  size_lt : bytes.length < 2 ^ 64
deriving DecidableEq

/-- A buffer of no bytes. -/
def Buffer.empty (memType : MemoryType) : Buffer := ⟨memType, [], by decide⟩

/-- A buffer of one byte. -/
def Buffer.singleton (memType : MemoryType) (b : UInt8) : Buffer :=
  ⟨memType, [b], (by decide : 1 < 2 ^ 64)⟩

/-- `Buffer::size`. -/
def Buffer.size (b : Buffer) : Nat := b.bytes.length

/-- A receive completes into the buffer it was posted with: the bytes of the matched message
replace those of the buffer, whose memory type stays. -/
def Buffer.fill (b payload : Buffer) : Buffer :=
  { payload with memType := b.memType }

@[simp] theorem Buffer.bytes_fill (b payload : Buffer) : (b.fill payload).bytes = payload.bytes :=
  rfl

end Rapidsmpf
