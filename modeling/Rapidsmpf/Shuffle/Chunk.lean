import Rapidsmpf.Lib.LittleEndian
import Rapidsmpf.Memory.Buffer

/-!
# Chunks of a shuffle

`shuffler/chunk.cpp`: a chunk carries the packed data of one partition, or, as a control message,
the number of chunks its sender has sent to the receiver. `deserialize_serialize` is the round
trip of the metadata message a chunk travels as.
-/

namespace Rapidsmpf.Shuffle

open LittleEndian

/-- `PartID`. -/
abbrev PartID := Nat

/-- `PackedData`. -/
structure PackedData where
  metadata : Bytes
  data : Buffer
deriving DecidableEq

/-- `PackedData::empty`. -/
def PackedData.empty (d : PackedData) : Bool :=
  d.metadata.isEmpty && d.data.size == 0

/-- The bytes of packed data. -/
def PackedData.content (d : PackedData) : Bytes × Bytes :=
  (d.metadata, d.data.bytes)

/-- `detail::Chunk`. -/
structure Chunk where
  chunkId : Nat
  partId : PartID
  expectedNumChunks : Nat
  metadataSize : Nat
  dataSize : Nat
  metadata : Bytes
  data : Option Buffer
deriving DecidableEq

namespace Chunk

/-- `is_control_message`. -/
def isControlMessage (c : Chunk) : Bool := decide (0 < c.expectedNumChunks)

/-- `from_packed_data`. -/
def fromPackedData (chunkId : Nat) (partId : PartID) (d : PackedData) : Chunk :=
  ⟨chunkId, partId, 0, d.metadata.length % 2 ^ 32, d.data.size, d.metadata, some d.data⟩

/-- `from_finished_partition`. -/
def fromFinishedPartition (chunkId : Nat) (partId : PartID) (expectedNumChunks : Nat) : Chunk :=
  ⟨chunkId, partId, expectedNumChunks, 0, 0, [], none⟩

/-- `serialize`: chunk id, partition id, expected number of chunks, the two sizes, metadata. -/
def serialize (c : Chunk) : Bytes :=
  toBytes 8 c.chunkId ++ (toBytes 4 c.partId ++ (toBytes 8 c.expectedNumChunks ++
    (toBytes 4 c.metadataSize ++ (toBytes 8 c.dataSize ++ c.metadata))))

/-- The size field of a message fits a `std::size_t`. -/
theorem data_size_lt (msg : Bytes) : (List.replicate (readAt 24 8 msg) (0 : UInt8)).length
    < 2 ^ 64 := by
  rw [List.length_replicate]
  calc readAt 24 8 msg < 256 ^ ((msg.drop 24).take 8).length := of_bytes_lt _
    _ ≤ 256 ^ 8 := Nat.pow_le_pow_right (by decide) (by simp)
    _ = 2 ^ 64 := by decide

/-- `deserialize` without validation. A chunk that is no control message and came without a
payload gets a buffer of its data size in the memory type that could be reserved. -/
def deserialize (msg : Bytes) (memType : MemoryType) (data : Option Buffer) : Chunk where
  chunkId := readAt 0 8 msg
  partId := readAt 8 4 msg
  expectedNumChunks := readAt 12 8 msg
  metadataSize := readAt 20 4 msg
  dataSize := readAt 24 8 msg
  metadata := msg.drop 32
  data :=
    match data with
    | some b => some b
    | none =>
        if readAt 12 8 msg = 0 then
          some ⟨memType, List.replicate (readAt 24 8 msg) 0, data_size_lt msg⟩
        else none

/-- What a chunk says, whatever memory its payload is in. -/
structure Info where
  chunkId : Nat
  partId : PartID
  expectedNumChunks : Nat
  metadata : Bytes
  payload : Bytes
deriving DecidableEq

/-- What the chunk says. -/
def info (c : Chunk) : Info :=
  ⟨c.chunkId, c.partId, c.expectedNumChunks, c.metadata, (c.data.map Buffer.bytes).getD []⟩

/-- The fields fit their integer types and the data size is that of the payload. -/
structure Valid (c : Chunk) : Prop where
  chunkId_lt : c.chunkId < 2 ^ 64
  partId_lt : c.partId < 2 ^ 32
  expected_lt : c.expectedNumChunks < 2 ^ 64
  metadataSize_lt : c.metadataSize < 2 ^ 32
  dataSize_eq : c.dataSize = c.info.payload.length

theorem Valid.dataSize_lt {c : Chunk} (h : c.Valid) : c.dataSize < 2 ^ 64 := by
  rw [h.dataSize_eq, info]
  cases hd : c.data with
  | none => simp
  | some b => simpa using b.size_lt

/-- What a delivered payload is to the chunk that was sent: the same bytes, and nothing where the
chunk had no payload or an empty one. -/
def Carries (c : Chunk) (data : Option Buffer) : Prop :=
  (data.map Buffer.bytes).getD [] = c.info.payload

/-- Round trip: the receiver's chunk says what the sender's chunk said. -/
theorem deserialize_serialize {c : Chunk} (h : c.Valid) {data : Option Buffer}
    (hdata : c.Carries data) (memType : MemoryType) :
    (deserialize c.serialize memType data).info = c.info := by
  have hid : readAt 0 8 c.serialize = c.chunkId := read_at_zero h.chunkId_lt _
  have hpart : readAt (8 + 0) 4 c.serialize = c.partId := by
    rw [serialize, read_at_skip, read_at_zero h.partId_lt]
  have hexpected : readAt (8 + (4 + 0)) 8 c.serialize = c.expectedNumChunks := by
    rw [serialize, read_at_skip, read_at_skip, read_at_zero h.expected_lt]
  have hsize : readAt (8 + (4 + (8 + (4 + 0)))) 8 c.serialize = c.dataSize := by
    rw [serialize, read_at_skip, read_at_skip, read_at_skip, read_at_skip,
      read_at_zero h.dataSize_lt]
  have hmeta : c.serialize.drop (8 + (4 + (8 + (4 + (8 + 0))))) = c.metadata := by
    rw [serialize, drop_skip, drop_skip, drop_skip, drop_skip, drop_skip, List.drop_zero]
  have hpayload : ((deserialize c.serialize memType data).data.map Buffer.bytes).getD []
      = c.info.payload := by
    cases data with
    | some b => exact hdata
    | none =>
        have hnil : c.info.payload = [] := hdata.symm
        have hzero : c.dataSize = 0 := by rw [h.dataSize_eq, hnil, List.length_nil]
        simp only [deserialize]
        split
        · have : readAt 24 8 c.serialize = 0 := hsize.trans hzero
          simp [this, hnil]
        · simp [hnil]
  simp only [info] at hpayload ⊢
  rw [hpayload]
  simp only [deserialize, Info.mk.injEq]
  exact ⟨hid, hpart, hexpected, hmeta, trivial⟩

end Chunk

end Rapidsmpf.Shuffle
