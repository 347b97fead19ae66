import Rapidsmpf.Lib.LittleEndian
import Rapidsmpf.Lib.Fallible
import Rapidsmpf.Lib.Channel
import Rapidsmpf.Shuffle.Chunk

/-!
# Chunks of a collective

`coll/utils.cpp`: a chunk is packed data on its way, or the control message with which a rank
announces how much it contributed. `Msg` is what a chunk says, whatever memory its payload is in;
`deserialize_finish` and `deserialize_data` are the round trips of the metadata message a chunk
travels as. The payload of a data chunk travels separately.
-/

namespace Rapidsmpf.Coll

open LittleEndian Fallible Protocol
open Shuffle (PackedData)

/-- `detail::Chunk`. The destination `INVALID_RANK` is absent. -/
structure Chunk where
  id : Nat
  destination : Option Rank
  metadata : Option Bytes
  data : Option Buffer
  dataSize : Nat
deriving DecidableEq

/-- `ID_BITS`. -/
def idBits : Nat := 38

/-- `chunk_id`, computed in 64 bits. -/
def chunkId (sequence origin : Nat) : Nat :=
  (origin <<< idBits) % 2 ^ 64 ||| sequence

namespace Chunk

/-- `is_ready`, with the answer of `is_latest_write_done`. -/
def isReady (latestWriteDone : Bool) (c : Chunk) : Bool :=
  c.dataSize == 0 || (c.data.isSome && latestWriteDone)

/-- `is_finish`. -/
def isFinish (c : Chunk) : Bool := c.data.isNone && c.metadata.isNone

/-- `sequence`. -/
def sequence (c : Chunk) : Nat := c.id &&& (1 <<< idBits - 1)

/-- `origin`. -/
def origin (c : Chunk) : Nat := c.id >>> idBits

/-- `from_packed_data`. -/
def fromPackedData (sequence origin : Nat) (destination : Option Rank) (d : PackedData) : Chunk :=
  ⟨chunkId sequence origin, destination, some d.metadata, some d.data, d.data.size⟩

/-- `from_empty`. -/
def fromEmpty (sequence origin : Nat) (destination : Option Rank) : Chunk :=
  ⟨chunkId sequence origin, destination, none, none, 0⟩

/-- `serialize`. -/
def serialize (c : Chunk) : Bytes :=
  toBytes 8 c.id ++
    if c.isFinish then [] else toBytes 8 c.dataSize ++ c.metadata.getD []

/-- The size field of a message fits a `std::size_t`. -/
theorem data_size_lt (msg : Bytes) : (List.replicate (readAt 8 8 msg) (0 : UInt8)).length
    < 2 ^ 64 := by
  rw [List.length_replicate]
  calc readAt 8 8 msg < 256 ^ ((msg.drop 8).take 8).length := of_bytes_lt _
    _ ≤ 256 ^ 8 := Nat.pow_le_pow_right (by decide) (by simp)
    _ = 2 ^ 64 := by decide

/-- `deserialize`, with the memory type that could be reserved for the payload. -/
def deserialize (msg : Bytes) (memType : MemoryType) : Chunk :=
  if msg.length = 8 then ⟨readAt 0 8 msg, none, none, none, 0⟩
  else
    ⟨readAt 0 8 msg, none, some (msg.drop 16),
      some ⟨memType, List.replicate (readAt 8 8 msg) 0, data_size_lt msg⟩, readAt 8 8 msg⟩

/-- `release_data_buffer` of a chunk that has one; a null buffer cannot be sent. -/
def releaseDataBuffer (c : Chunk) : Except String (Buffer × Chunk) :=
  match c.data with
  | some b => pure (b, { c with data := none })
  | none => throw "no data buffer"

/-- `attach_data_buffer`. -/
def attachDataBuffer (b : Buffer) (c : Chunk) : Except String Chunk :=
  if b.size ≠ c.dataSize then throw "Mismatching data size"
  else if c.data.isSome then throw "Chunk already has data"
  else pure { c with data := some b }

end Chunk

/-- `PostBox::extract_ready`: the chunks that are ready and those that stay, both in order. The
argument says whether the latest write of each chunk in the box is done. -/
def extractReady : (Nat → Bool) → List Chunk → List Chunk × List Chunk
  | _, [] => ([], [])
  | written, c :: cs =>
      let (ready, rest) := extractReady (fun k => written (k + 1)) cs
      if c.isReady (written 0) then (c :: ready, rest) else (ready, c :: rest)

theorem extract_ready_perm (written : Nat → Bool) (cs : List Chunk) :
    ((extractReady written cs).1 ++ (extractReady written cs).2).Perm cs := by
  induction cs generalizing written with
  | nil => exact .refl _
  | cons c cs ih =>
      simp only [extractReady]
      split
      · exact (ih _).cons c
      · exact List.perm_middle.trans ((ih _).cons c)

/-! ## Channels -/

/-- The channels of one `op_id`, from a source to a destination: the tags of the metadata messages
and of the payloads. The stamps number the collectives that share the `op_id`. -/
structure Comm where
  metadata : Rank × Rank → Channel Nat Bytes
  payload : Rank × Rank → Channel Nat Buffer

/-- A posted receive: the position of the message it is matched with, and the buffer it owns. -/
structure RecvFuture where
  src : Rank
  position : Nat
  buffer : Buffer

namespace Comm

variable (src dst stamp : Nat)

/-- Nothing was sent and no receive was posted. -/
def empty : Comm := ⟨fun _ => .empty, fun _ => .empty⟩

/-- `send` of a metadata message. -/
def sendMetadata (msg : Bytes) (c : Comm) : Comm :=
  { c with metadata :=
      Function.update c.metadata (src, dst) ((c.metadata (src, dst)).send stamp msg) }

/-- `send` of a payload. -/
def sendPayload (b : Buffer) (c : Comm) : Comm :=
  { c with payload :=
      Function.update c.payload (src, dst) ((c.payload (src, dst)).send stamp b) }

/-- `recv_from` for a metadata message that has arrived. -/
def recvFrom (c : Comm) : Option (Bytes × Comm) :=
  (c.metadata (src, dst)).next?.map fun x =>
    (x.2, { c with metadata :=
      Function.update c.metadata (src, dst) ((c.metadata (src, dst)).post stamp) })

/-- `recv` of a payload. -/
def recv (b : Buffer) (c : Comm) : RecvFuture × Comm :=
  (⟨src, (c.payload (src, dst)).matched, b⟩,
    { c with payload := Function.update c.payload (src, dst) ((c.payload (src, dst)).post stamp) })

/-- `release_data` of a receive that is complete: its message has been sent. -/
def releaseData (f : RecvFuture) (c : Comm) : Except String Buffer :=
  match (c.payload (f.src, dst)).content? f.position with
  | some b => pure (f.buffer.fill b)
  | none => throw "the receive is not complete"

end Comm

/-! ## What a chunk says -/

/-- Packed data on its way: the identifier, the metadata and the payload. -/
structure Item where
  id : Nat
  metadata : Bytes
  payload : Bytes
deriving DecidableEq

/-- What a metadata message announces: a contribution, or the end of all contributions. -/
inductive Msg where
  | data (item : Item)
  | finish (id : Nat)
deriving DecidableEq

namespace Msg

/-- The identifier. -/
def id : Msg → Nat
  | data item => item.id
  | finish id => id

/-- `origin`. -/
def origin (m : Msg) : Nat := m.id >>> idBits

/-- The end of all contributions. -/
def isFinish : Msg → Bool
  | data _ => false
  | finish _ => true

/-- The number of contributions a finish message announces. -/
def announced : Msg → Nat
  | data _ => 0
  | finish id => id &&& (1 <<< idBits - 1)

/-- The contribution. -/
def item? : Msg → Option Item
  | data item => some item
  | finish _ => none

/-- The metadata message. -/
def serialize : Msg → Bytes
  | data item => toBytes 8 item.id ++ (toBytes 8 item.payload.length ++ item.metadata)
  | finish id => toBytes 8 id

/-- The numbers fit their fields. -/
def Valid : Msg → Prop
  | data item => item.id < 2 ^ 64 ∧ item.payload.length < 2 ^ 64
  | finish id => id < 2 ^ 64

end Msg

/-- The chunk says `m`, and its payload is there. -/
def Chunk.Says (c : Chunk) : Msg → Prop
  | .data item => c.id = item.id ∧ c.metadata = some item.metadata
      ∧ c.data.map Buffer.bytes = some item.payload ∧ c.dataSize = item.payload.length
  | .finish id => c.id = id ∧ c.metadata = none ∧ c.data = none ∧ c.dataSize = 0

/-- The chunk is the head of an item, whose payload is elsewhere. -/
structure Chunk.Heads (c : Chunk) (item : Item) : Prop where
  id : c.id = item.id
  metadata : c.metadata = some item.metadata
  dataSize : c.dataSize = item.payload.length

namespace Chunk

variable {c c' : Chunk} {m : Msg} {item : Item} {b : Buffer}

theorem Says.origin_eq (h : c.Says m) : c.origin = m.origin := by
  cases m with
  | data item => rw [Chunk.origin, Msg.origin, Msg.id, h.1]
  | finish id => rw [Chunk.origin, Msg.origin, Msg.id, h.1]

theorem Says.is_finish_eq (h : c.Says m) : c.isFinish = m.isFinish := by
  cases m with
  | data item => simp [isFinish, Msg.isFinish, h.2.1]
  | finish id => simp [isFinish, Msg.isFinish, h.2.1, h.2.2.1]

theorem Says.sequence_eq {id : Nat} (h : c.Says (.finish id)) :
    c.sequence = (Msg.finish id).announced := by
  rw [sequence, Msg.announced, h.1]

theorem Says.serialize_eq (h : c.Says m) : c.serialize = m.serialize := by
  have hfinish := h.is_finish_eq
  cases m with
  | data item =>
      obtain ⟨hid, hmeta, -, hsize⟩ := h
      simp [serialize, hfinish, Msg.isFinish, Msg.serialize, hid, hmeta, hsize]
  | finish id => simp [serialize, hfinish, Msg.isFinish, Msg.serialize, h.1]

theorem Says.valid (h : c.Says m) (hid : c.id < 2 ^ 64) : m.Valid := by
  cases m with
  | data item =>
      obtain ⟨heq, -, hdata, -⟩ := h
      obtain ⟨b, -, hb⟩ := Option.map_eq_some_iff.mp hdata
      exact ⟨heq ▸ hid, hb ▸ b.size_lt⟩
  | finish id => exact h.1 ▸ hid

/-- The payload of a data chunk is released, and the head stays. -/
theorem Says.release (h : c.Says (.data item)) :
    ∃ b, c.releaseDataBuffer = .ok (b, { c with data := none }) ∧ b.bytes = item.payload
      ∧ Heads { c with data := none } item := by
  obtain ⟨hid, hmeta, hdata, hsize⟩ := h
  obtain ⟨b, hb, hbytes⟩ := Option.map_eq_some_iff.mp hdata
  refine ⟨b, ?_, hbytes, hid, hmeta, hsize⟩
  rw [releaseDataBuffer, hb]
  rfl

/-- A payload is attached to the head of its item. -/
theorem Heads.attach (h : c.Heads item) (hnone : c.data = none) (hb : b.bytes = item.payload) :
    c.attachDataBuffer b = .ok { c with data := some b }
      ∧ Says { c with data := some b } (.data item) := by
  have hsize : b.size = c.dataSize := by rw [h.dataSize, Buffer.size, hb]
  refine ⟨?_, h.id, h.metadata, congrArg some hb, h.dataSize⟩
  rw [attachDataBuffer, if_neg (not_not.mpr hsize), hnone]
  rfl

/-- The receiver of a finish message has the chunk that says it. -/
theorem deserialize_finish {id : Nat} (h : (Msg.finish id).Valid) (memType : MemoryType) :
    Says (deserialize (Msg.finish id).serialize memType) (.finish id) := by
  have hid : readAt 0 8 (toBytes 8 id) = id := by
    simpa using read_at_zero h []
  have hlength : (toBytes 8 id).length = 8 := length_toBytes 8 id
  rw [Msg.serialize, deserialize, if_pos hlength]
  exact ⟨hid, rfl, rfl, rfl⟩

/-- The receiver of the metadata of a contribution has its head, with a buffer for the payload. -/
theorem deserialize_data (h : (Msg.data item).Valid) (memType : MemoryType) :
    Heads (deserialize (Msg.data item).serialize memType) item
      ∧ ∃ b, (deserialize (Msg.data item).serialize memType).data = some b := by
  have hid : readAt 0 8 (Msg.data item).serialize = item.id := read_at_zero h.1 _
  have hsize : readAt (8 + 0) 8 (Msg.data item).serialize = item.payload.length := by
    rw [Msg.serialize, read_at_skip, read_at_zero h.2]
  have hmeta : (Msg.data item).serialize.drop (8 + (8 + 0)) = item.metadata := by
    rw [Msg.serialize, drop_skip, drop_skip, List.drop_zero]
  have hlength : ¬ (Msg.data item).serialize.length = 8 := by
    simp [Msg.serialize]
  rw [deserialize, if_neg hlength]
  exact ⟨⟨hid, congrArg some hmeta, hsize⟩, _, rfl⟩

end Chunk

/-! ## Identifiers -/

theorem and_sequence_mask (id : Nat) : id &&& (1 <<< idBits - 1) = id % 2 ^ 38 := by
  rw [idBits, Nat.one_shiftLeft, Nat.and_two_pow_sub_one_eq_mod]

/-- The identifier of a sequence number of 38 bits and an origin of 26 bits. -/
theorem chunk_id_eq {sequence origin : Nat} (hs : sequence < 2 ^ 38) (ho : origin < 2 ^ 26) :
    chunkId sequence origin = origin * 2 ^ 38 + sequence := by
  have hlt : origin * 2 ^ 38 < 2 ^ 64 := by omega
  rw [chunkId, idBits, Nat.shiftLeft_eq, Nat.mod_eq_of_lt hlt, Nat.mul_comm,
    ← Nat.two_pow_add_eq_or_of_lt hs]

theorem chunk_id_lt {sequence origin : Nat} (hs : sequence < 2 ^ 38) (ho : origin < 2 ^ 26) :
    chunkId sequence origin < 2 ^ 64 := by
  rw [chunk_id_eq hs ho]
  omega

theorem chunk_id_origin {sequence origin : Nat} (hs : sequence < 2 ^ 38) (ho : origin < 2 ^ 26) :
    chunkId sequence origin >>> idBits = origin := by
  rw [chunk_id_eq hs ho, idBits, Nat.shiftRight_eq_div_pow]
  omega

theorem chunk_id_sequence {sequence origin : Nat} (hs : sequence < 2 ^ 38)
    (ho : origin < 2 ^ 26) : chunkId sequence origin &&& (1 <<< idBits - 1) = sequence := by
  rw [chunk_id_eq hs ho, and_sequence_mask]
  omega

end Rapidsmpf.Coll
