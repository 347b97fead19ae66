import Mathlib
import Rapidsmpf.Lib.Codec
import Rapidsmpf.Lib.Traced
import Rapidsmpf.Shuffle.Chunk

/-!
# The wire format of a chunk

`shuffler/chunk.cpp` once more, with the integer types of the fields, pointers that may be null, and
what `deserialize` reads of a message. The size of the metadata is a `std::uint32_t` in the header,
but the length of the vector on the wire: `wire_format_iff` says which chunks this leaves intact,
and that every message with a valid format is the image of a chunk.
-/

namespace Rapidsmpf.Shuffle

open LittleEndian Codec

/-! ## The code -/

/-- `detail::Chunk`, as an object. -/
structure ChunkObject where
  chunkId : UInt64
  partId : UInt32
  expectedNumChunks : UInt64
  metadataSize : UInt32
  dataSize : UInt64
  metadata : Option Bytes
  data : Option Buffer
deriving DecidableEq

/-- What the functions below throw. -/
inductive ChunkError where
  | nullMetadata
  | nullData
  | badFormat
  | noResource
  | allocation (what : String)
deriving DecidableEq

/-- `make_buffer` of a reservation for a number of bytes, which is that large. -/
structure BufferSource where
  makeBuffer : Nat → Except ChunkError Buffer
  size_eq : ∀ n b, makeBuffer n = .ok b → b.size = n

/-- `width` bytes of a message from a position on. -/
structure Span where
  pos : Nat
  width : Nat
deriving DecidableEq

namespace ChunkObject

/-- `is_control_message`. -/
def isControlMessage (c : ChunkObject) : Bool := decide (0 < c.expectedNumChunks)

/-- `metadata_message_header_size`. -/
def headerSize : Nat := 8 + 4 + 8 + 4 + 8

/-- `from_packed_data`. The size of the metadata is narrowed to 32 bits. -/
def fromPackedData (chunkId : UInt64) (partId : UInt32) (metadata : Option Bytes)
    (data : Option Buffer) : Except ChunkError ChunkObject :=
  match metadata, data with
  | none, _ => .error .nullMetadata
  | some _, none => .error .nullData
  | some m, some d =>
      .ok ⟨chunkId, partId, 0, .ofNat m.length, .ofNat d.size, some m, some d⟩

/-- `from_finished_partition`. -/
def fromFinishedPartition (chunkId : UInt64) (partId : UInt32) (expectedNumChunks : UInt64) :
    ChunkObject :=
  ⟨chunkId, partId, expectedNumChunks, 0, 0, none, none⟩

/-- The writes of `serialize` before the metadata. -/
def writeHeader (c : ChunkObject) (p : Cursor) : Cursor :=
  let p := p.write (toBytes 8 c.chunkId.toNat)
  let p := p.write (toBytes 4 c.partId.toNat)
  let p := p.write (toBytes 8 c.expectedNumChunks.toNat)
  let p := p.write (toBytes 4 c.metadataSize.toNat)
  p.write (toBytes 8 c.dataSize.toNat)

/-- `serialize`: the message, and the chunk whose metadata was consumed. -/
def serialize (c : ChunkObject) : Bytes × ChunkObject :=
  match c.metadata with
  | none => ((c.writeHeader ⟨0, List.replicate headerSize 0⟩).buffer, c)
  | some m =>
      let p := c.writeHeader ⟨0, List.replicate (headerSize + m.length) 0⟩
      ((p.write m).buffer, { c with metadata := some [] })

end ChunkObject

/-- Code that is watched. -/
abbrev Watched (α : Type) := Traced Span ChunkError α

/-- `validate_format`. -/
def validateFormat (serializedBuf : Bytes) : Watched Bool :=
  if serializedBuf.length < ChunkObject.headerSize then pure false
  else do
    .note ⟨8 + 4 + 8, 4⟩
    let metadataSize := readAt (8 + 4 + 8) 4 serializedBuf
    pure (decide (serializedBuf.length = ChunkObject.headerSize + metadataSize))

/-- The validation at the beginning of `deserialize`. -/
def requireFormat (msg : Bytes) (validate : Bool) : Watched PUnit :=
  if validate then do
    let valid ← validateFormat msg
    .check (valid = true) .badFormat
  else pure ⟨⟩

/-- The payload of a chunk that is not a control message, if none was given. -/
def attachData (br : Option BufferSource) (expectedNumChunks dataSize : Nat)
    (data : Option Buffer) : Watched (Option Buffer) :=
  match data with
  | some b => pure (some b)
  | none =>
      if expectedNumChunks = 0 then
        match br with
        | none => .fail .noResource
        | some br => .ofExcept ((br.makeBuffer dataSize).map some)
      else pure none

/-- `deserialize`. -/
def deserialize (msg : Bytes) (br : Option BufferSource) (validate : Bool)
    (data : Option Buffer) : Watched ChunkObject := do
  requireFormat msg validate
  .note ⟨0, 8⟩
  let chunkId := readAt 0 8 msg
  .note ⟨8, 4⟩
  let partId := readAt 8 4 msg
  .note ⟨12, 8⟩
  let expectedNumChunks := readAt 12 8 msg
  .note ⟨20, 4⟩
  let metadataSize := readAt 20 4 msg
  .note ⟨24, 8⟩
  let dataSize := readAt 24 8 msg
  .note ⟨32, msg.length - 32⟩
  let concatMetadata := msg.drop 32
  let data ← attachData br expectedNumChunks dataSize data
  pure ⟨.ofNat chunkId, .ofNat partId, .ofNat expectedNumChunks, .ofNat metadataSize,
    .ofNat dataSize, some concatMetadata, data⟩

/-! ## Messages -/

/-- The message of a chunk. -/
def ChunkObject.image (c : ChunkObject) : Bytes :=
  toBytes 8 c.chunkId.toNat ++ (toBytes 4 c.partId.toNat ++
    (toBytes 8 c.expectedNumChunks.toNat ++ (toBytes 4 c.metadataSize.toNat ++
      (toBytes 8 c.dataSize.toNat ++ c.metadata.getD []))))

/-- What a chunk says in the model of the shuffle. -/
def ChunkObject.toChunk (c : ChunkObject) : Chunk :=
  ⟨c.chunkId.toNat, c.partId.toNat, c.expectedNumChunks.toNat, c.metadataSize.toNat,
    c.dataSize.toNat, c.metadata.getD [], c.data⟩

theorem write_header_fills (c : ChunkObject) : Fills c.writeHeader
    (toBytes 8 c.chunkId.toNat ++ (toBytes 4 c.partId.toNat ++
      (toBytes 8 c.expectedNumChunks.toNat ++ (toBytes 4 c.metadataSize.toNat ++
        toBytes 8 c.dataSize.toNat)))) :=
  (Fills.write _).comp ((Fills.write _).comp ((Fills.write _).comp
    ((Fills.write _).comp (Fills.write _))))

/-- The writes fill the buffer with the image of the chunk. -/
theorem serialize_eq_image (c : ChunkObject) : c.serialize.1 = c.image := by
  unfold ChunkObject.serialize ChunkObject.image
  cases c.metadata with
  | none =>
      refine ((write_header_fills c).buffer_eq ?_).trans ?_
      · simp [ChunkObject.headerSize]
      · rw [Option.getD_none, List.append_nil]
  | some m =>
      refine (((write_header_fills c).comp (Fills.write m)).buffer_eq ?_).trans ?_
      · simp [ChunkObject.headerSize]
        omega
      · simp only [Option.getD_some, List.append_assoc]

theorem image_eq_serialize (c : ChunkObject) : c.image = c.toChunk.serialize := rfl

theorem length_image (c : ChunkObject) :
    c.image.length = ChunkObject.headerSize + (c.metadata.getD []).length := by
  simp only [ChunkObject.image, List.length_append, length_toBytes, ChunkObject.headerSize]
  omega

/-- The message has a valid format. -/
def Accepted (msg : Bytes) : Prop := (validateFormat msg).outcome = .ok true

theorem accepted_iff {msg : Bytes} :
    Accepted msg ↔ msg.length = ChunkObject.headerSize + readAt 20 4 msg := by
  rw [Accepted, validateFormat]
  split
  · next hshort =>
      rw [Traced.outcome_pure]
      constructor
      · intro h
        cases h
      · omega
  · show Except.ok (decide _) = Except.ok true ↔ _
    rw [Except.ok.injEq, decide_eq_true_eq]

/-- The chunk that a message and a payload make. -/
def decoded (msg : Bytes) (data : Option Buffer) : ChunkObject :=
  ⟨.ofNat (readAt 0 8 msg), .ofNat (readAt 8 4 msg), .ofNat (readAt 12 8 msg),
    .ofNat (readAt 20 4 msg), .ofNat (readAt 24 8 msg), some (msg.drop 32), data⟩

/-- A message that is not refused is decoded. -/
theorem deserialize_eq_ok {msg : Bytes} {br : Option BufferSource} {validate : Bool}
    {data : Option Buffer} {c : ChunkObject} (h : Accepted msg) :
    (deserialize msg br validate data).outcome = .ok c ↔ ∃ payload,
      (attachData br (readAt 12 8 msg) (readAt 24 8 msg) data).outcome = .ok payload ∧
        c = decoded msg payload := by
  have hformat : (requireFormat msg validate).outcome = .ok ⟨⟩ := by
    rw [requireFormat]
    split
    · rw [Traced.outcome_of_ok h, Traced.outcome_check, if_pos rfl]
    · rfl
  rw [deserialize, Traced.outcome_of_ok hformat]
  simp only [Traced.outcome_bind, Traced.outcome_note, Fallible.bind_eq_ok, Traced.outcome_pure,
    Except.ok.injEq]
  constructor
  · rintro ⟨_, _, _, _, _, _, _, _, _, _, _, _, payload, hpayload, rfl⟩
    exact ⟨payload, hpayload, rfl⟩
  · rintro ⟨payload, hpayload, rfl⟩
    exact ⟨⟨⟩, trivial, ⟨⟩, trivial, ⟨⟩, trivial, ⟨⟩, trivial, ⟨⟩, trivial, ⟨⟩, trivial, payload,
      hpayload, rfl⟩

/-- The range lies in the message. -/
def Span.Within (msg : Bytes) (s : Span) : Prop := s.pos + s.width ≤ msg.length

theorem validate_format_ensures {msg : Bytes} {X : ChunkError → Prop} :
    (validateFormat msg).Ensures (Span.Within msg) X fun _ => True := by
  rw [validateFormat]
  split
  · exact .pure trivial
  · next hlong =>
      rw [ChunkObject.headerSize] at hlong
      exact .note_bind (show 8 + 4 + 8 + 4 ≤ msg.length by omega) (.pure trivial)

theorem require_format_ensures {msg : Bytes} {validate : Bool} :
    (requireFormat msg validate).Ensures (Span.Within msg) (fun _ => True) fun _ => True := by
  rw [requireFormat]
  split
  · refine validate_format_ensures.bind fun valid _ => ?_
    rw [Traced.check]
    split
    · exact .pure trivial
    · exact .fail trivial
  · exact .pure trivial

theorem attach_none (br : Option BufferSource) (n size : Nat) :
    attachData br n size none =
      if n = 0 then
        match br with
        | none => .fail .noResource
        | some br => .ofExcept ((br.makeBuffer size).map some)
      else pure none := rfl

theorem attach_data_ensures {msg : Bytes} {br : Option BufferSource} {n size : Nat}
    {data : Option Buffer} :
    (attachData br n size data).Ensures (Span.Within msg) (fun _ => True) fun _ => True := by
  have hnone : ∀ r : Except ChunkError (Option Buffer),
      (Traced.ofExcept r : Watched _).Ensures (Span.Within msg) (fun _ => True) fun _ => True :=
    fun r => ⟨fun _ he => (nomatch he), fun _ _ => trivial, fun _ _ => trivial⟩
  cases data with
  | some b => exact .pure trivial
  | none =>
      rw [attach_none]
      split
      · cases br with
        | none => exact .fail (X := fun _ => True) trivial
        | some br => exact hnone _
      · exact .pure (P := fun _ => True) trivial

/-- Nothing is read behind the end of a message with a valid format. -/
theorem deserialize_within {msg : Bytes} (h : Accepted msg) (br : Option BufferSource)
    (validate : Bool) (data : Option Buffer) :
    ∀ s ∈ (deserialize msg br validate data).events, s.Within msg := by
  have hlength := accepted_iff.mp h
  rw [ChunkObject.headerSize] at hlength
  refine (require_format_ensures.bind fun _ _ => ?_ :
    (deserialize msg br validate data).Ensures (Span.Within msg) (fun _ => True)
      fun _ => True).events
  refine .note_bind (show 0 + 8 ≤ msg.length by omega) ?_
  refine .note_bind (show 8 + 4 ≤ msg.length by omega) ?_
  refine .note_bind (show 12 + 8 ≤ msg.length by omega) ?_
  refine .note_bind (show 20 + 4 ≤ msg.length by omega) ?_
  refine .note_bind (show 24 + 8 ≤ msg.length by omega) ?_
  refine .note_bind (show 32 + (msg.length - 32) ≤ msg.length by omega) ?_
  exact attach_data_ensures.bind fun _ _ => .pure trivial

/-- A number read from a field is written back as the bytes of the field. -/
theorem to_bytes_field {msg : Bytes} {offset w : Nat} (h : offset + w ≤ msg.length) (rest : Bytes)
    (hrest : rest = msg.drop (offset + w)) :
    toBytes w (readAt offset w msg) ++ rest = msg.drop offset := by
  rw [to_bytes_read_at h, hrest, ← List.drop_drop, List.take_append_drop]

/-- A message with a valid format is the image of its chunk. -/
theorem image_decoded {msg : Bytes} (h : Accepted msg) (data : Option Buffer) :
    (decoded msg data).image = msg := by
  have hlength := accepted_iff.mp h
  rw [ChunkObject.headerSize] at hlength
  have hwide : ∀ offset, (UInt64.ofNat (readAt offset 8 msg)).toNat = readAt offset 8 msg :=
    fun offset => UInt64.toNat_ofNat_of_lt (read_at_lt offset 8 msg)
  have hnarrow : ∀ offset, (UInt32.ofNat (readAt offset 4 msg)).toNat = readAt offset 4 msg :=
    fun offset => UInt32.toNat_ofNat_of_lt (read_at_lt offset 4 msg)
  simp only [ChunkObject.image, decoded, hwide, hnarrow, Option.getD_some]
  rw [to_bytes_field (by omega) _ rfl, to_bytes_field (by omega) _ rfl,
    to_bytes_field (by omega) _ rfl, to_bytes_field (by omega) _ rfl,
    to_bytes_field (by omega) _ rfl, List.drop_zero]

/-! ## The round trip -/

/-- The message of a chunk is accepted and gives the chunk back, if its payload is attached. -/
structure RoundTrips (br : Option BufferSource) (c : ChunkObject) : Prop where
  accepted : Accepted c.serialize.1
  restored : ∃ c', (deserialize c.serialize.1 br true c.data).outcome = .ok c' ∧
    c'.chunkId = c.chunkId ∧ c'.partId = c.partId ∧
    c'.expectedNumChunks = c.expectedNumChunks ∧ c'.metadataSize = c.metadataSize ∧
    c'.dataSize = c.dataSize ∧ c'.metadata.getD [] = c.metadata.getD [] ∧
    (c'.data.map Buffer.bytes).getD [] = (c.data.map Buffer.bytes).getD [] ∧
    c'.isControlMessage = c.isControlMessage

/-- The fields of an image are those of the chunk. -/
theorem read_image (c : ChunkObject) :
    readAt 0 8 c.image = c.chunkId.toNat ∧ readAt 8 4 c.image = c.partId.toNat ∧
      readAt 12 8 c.image = c.expectedNumChunks.toNat ∧
      readAt 20 4 c.image = c.metadataSize.toNat ∧ readAt 24 8 c.image = c.dataSize.toNat ∧
      c.image.drop 32 = c.metadata.getD [] := by
  have hwide : ∀ n : UInt64, n.toNat < 256 ^ 8 := UInt64.toNat_lt
  have hnarrow : ∀ n : UInt32, n.toNat < 256 ^ 4 := UInt32.toNat_lt
  unfold ChunkObject.image
  refine ⟨read_at_zero (hwide _) _, ?_, ?_, ?_, ?_, ?_⟩
  · exact (read_at_skip 8 _ 0 4 _).trans (read_at_zero (hnarrow _) _)
  · exact (read_at_skip 8 _ 4 8 _).trans ((read_at_skip 4 _ 0 8 _).trans
      (read_at_zero (hwide _) _))
  · exact (read_at_skip 8 _ 12 4 _).trans ((read_at_skip 4 _ 8 4 _).trans
      ((read_at_skip 8 _ 0 4 _).trans (read_at_zero (hnarrow _) _)))
  · exact (read_at_skip 8 _ 16 8 _).trans ((read_at_skip 4 _ 12 8 _).trans
      ((read_at_skip 8 _ 4 8 _).trans ((read_at_skip 4 _ 0 8 _).trans
        (read_at_zero (hwide _) _))))
  · exact (drop_skip 8 _ 24 _).trans ((drop_skip 4 _ 20 _).trans ((drop_skip 8 _ 12 _).trans
      ((drop_skip 4 _ 8 _).trans (drop_skip 8 _ 0 _))))

/-- The payload that a message comes with, or the buffer it asks for. -/
def Attachable (br : Option BufferSource) (c : ChunkObject) : Prop :=
  c.data = none → c.dataSize = 0 ∧ (c.expectedNumChunks = 0 →
    ∃ source b, br = some source ∧ source.makeBuffer 0 = .ok b)

/-- A chunk survives exactly when its header has the length of its metadata. -/
theorem round_trips_iff {br : Option BufferSource} {c : ChunkObject} (h : Attachable br c) :
    RoundTrips br c ↔ (c.metadata.getD []).length = c.metadataSize.toNat := by
  obtain ⟨hchunk, hpart, hexpected, hmetadata, hdata, hdrop⟩ := read_image c
  have hformat : Accepted c.serialize.1 ↔
      (c.metadata.getD []).length = c.metadataSize.toNat := by
    rw [serialize_eq_image, accepted_iff, hmetadata, length_image, Nat.add_left_cancel_iff]
  refine ⟨fun hround => hformat.mp hround.accepted, fun hsize => ?_⟩
  have haccepted := hformat.mpr hsize
  refine ⟨haccepted, ?_⟩
  have hpayload : ∃ payload, (attachData br c.expectedNumChunks.toNat c.dataSize.toNat
      c.data).outcome = .ok payload ∧
        (payload.map Buffer.bytes).getD [] = (c.data.map Buffer.bytes).getD [] := by
    cases hc : c.data with
    | some b => exact ⟨some b, rfl, rfl⟩
    | none =>
        obtain ⟨hzero, hsource⟩ := h hc
        by_cases hcontrol : c.expectedNumChunks = 0
        · obtain ⟨source, b, rfl, hb⟩ := hsource hcontrol
          have hempty : b.bytes = [] := List.length_eq_zero_iff.mp (source.size_eq 0 b hb)
          refine ⟨some b, ?_, hempty⟩
          rw [hcontrol, hzero]
          show (source.makeBuffer 0).map some = _
          rw [hb]
          rfl
        · refine ⟨none, ?_, rfl⟩
          have hne : c.expectedNumChunks.toNat ≠ 0 := by
            rwa [ne_eq, ← UInt64.toNat_zero, UInt64.toNat_inj]
          rw [attach_none, if_neg hne]
          rfl
  obtain ⟨payload, hattach, hbytes⟩ := hpayload
  rw [serialize_eq_image] at haccepted ⊢
  refine ⟨decoded c.image payload, ?_, ?_⟩
  · exact (deserialize_eq_ok haccepted).mpr ⟨payload, by rwa [hexpected, hdata], rfl⟩
  · simp only [decoded, hchunk, hpart, hexpected, hmetadata, hdata, hdrop, UInt64.ofNat_toNat,
      UInt32.ofNat_toNat, ChunkObject.isControlMessage, Option.getD_some, true_and, and_true]
    exact hbytes

/-- The wire format. A data chunk survives exactly when the length of its metadata fits 32 bits. A
control chunk always does; if it expects no chunk, it is none, and needs an empty buffer. Of every
message with a valid format nothing is read behind its end, and its chunk is serialized to the
message again. -/
theorem wire_format_iff (chunkId : UInt64) (partId : UInt32) (br : Option BufferSource) :
    (∀ metadata data c,
      ChunkObject.fromPackedData chunkId partId (some metadata) (some data) = .ok c →
        (RoundTrips br c ↔ metadata.length < 2 ^ 32)) ∧
    (∀ expectedNumChunks,
      (expectedNumChunks = 0 → ∃ source b, br = some source ∧ source.makeBuffer 0 = .ok b) →
        RoundTrips br (.fromFinishedPartition chunkId partId expectedNumChunks)) ∧
    ∀ msg validate data, Accepted msg →
      (∀ s ∈ (deserialize msg br validate data).events, s.Within msg) ∧
        ∀ c, (deserialize msg br validate data).outcome = .ok c → c.serialize.1 = msg := by
  refine ⟨?_, ?_, ?_⟩
  · intro metadata data c hc
    cases hc
    rw [round_trips_iff fun hnone => absurd hnone (Option.some_ne_none data)]
    show metadata.length = (UInt32.ofNat metadata.length).toNat ↔ _
    rw [UInt32.toNat_ofNat', eq_comm]
    exact Nat.mod_eq_iff_lt (by decide)
  · intro expectedNumChunks hsource
    exact (round_trips_iff fun _ => ⟨rfl, hsource⟩).mpr rfl
  · intro msg validate data hmsg
    refine ⟨deserialize_within hmsg br validate data, fun c hc => ?_⟩
    obtain ⟨payload, -, rfl⟩ := (deserialize_eq_ok hmsg).mp hc
    rw [serialize_eq_image, image_decoded hmsg]

/-- The message of a chunk with metadata of 4 GiB is refused. -/
theorem long_metadata_refused : ∃ c,
    ChunkObject.fromPackedData 0 0 (some (List.replicate (2 ^ 32) 0)) (some (.empty .host)) =
      .ok c ∧ ∀ br, ¬ RoundTrips br c := by
  refine ⟨_, rfl, fun br => ?_⟩
  rw [round_trips_iff fun hnone => absurd hnone (Option.some_ne_none _)]
  show ¬ (List.replicate (2 ^ 32) (0 : UInt8)).length =
    (UInt32.ofNat (List.replicate (2 ^ 32) (0 : UInt8)).length).toNat
  rw [List.length_replicate]
  decide

end Rapidsmpf.Shuffle
