import Mathlib
import Rapidsmpf.Coll.Chunk

/-!
# Identifiers and messages of collective chunks

A chunk id joins the rank of its origin and a sequence number in one 64-bit word. `keeps_apart_iff`
says that both can be told from it, and that its order is the one of ranks and sequence numbers,
exactly when the sequence numbers have 38 bits; nothing checks that they do. The kind of a message
is not stored either: `deserialize` infers it from the length, `isFinish` from null pointers.
`message_round_trip` says that these agree for all chunks there can be.
-/

namespace Rapidsmpf.Coll

open LittleEndian Fallible
open Shuffle (PackedData)

/-! ## Identifiers -/

/-- A data chunk or finish marker with a sequence number and an origin. -/
inductive Chunk.Built (sequence origin : Nat) : Chunk → Prop where
  | packed (destination : Option Rank) (d : PackedData) :
      Built sequence origin (fromPackedData sequence origin destination d)
  | finish (destination : Option Rank) :
      Built sequence origin (fromEmpty sequence origin destination)

/-- The ids of two chunks have their origins and sequence numbers, and the order of these. -/
structure KeepsApart (s r s' r' : Nat) (c c' : Chunk) : Prop where
  origin : c.origin = r ∧ c'.origin = r'
  sequence : c.sequence = s ∧ c'.sequence = s'
  eq_iff : c.id = c'.id ↔ r = r' ∧ s = s'
  lt_iff : c.id < c'.id ↔ r < r' ∨ r = r' ∧ s < s'

section

variable {s r s' r' : Nat} {c c' : Chunk}

theorem Chunk.Built.id_eq (h : c.Built s r) : c.id = chunkId s r := by
  cases h <;> rfl

/-- The ids keep ranks and sequence numbers apart exactly when the sequence numbers fit. -/
theorem keeps_apart_iff (hr : r < 2 ^ 26) (hr' : r' < 2 ^ 26) (h : c.Built s r)
    (h' : c'.Built s' r') : KeepsApart s r s' r' c c' ↔ s < 2 ^ 38 ∧ s' < 2 ^ 38 := by
  have hfits : ∀ {d : Chunk} {n : Nat}, d.sequence = n → n < 2 ^ 38 := by
    rintro d _ rfl
    rw [Chunk.sequence, and_sequence_mask]
    exact Nat.mod_lt _ (by decide)
  constructor
  · intro hapart
    exact ⟨hfits hapart.sequence.1, hfits hapart.sequence.2⟩
  · rintro ⟨hs, hs'⟩
    have hid := h.id_eq
    have hid' := h'.id_eq
    refine ⟨?_, ?_, ?_, ?_⟩
    · rw [Chunk.origin, Chunk.origin, hid, hid']
      exact ⟨chunk_id_origin hs hr, chunk_id_origin hs' hr'⟩
    · rw [Chunk.sequence, Chunk.sequence, hid, hid']
      exact ⟨chunk_id_sequence hs hr, chunk_id_sequence hs' hr'⟩
    · rw [hid, hid', chunk_id_eq hs hr, chunk_id_eq hs' hr']
      omega
    · rw [hid, hid', chunk_id_eq hs hr, chunk_id_eq hs' hr']
      omega

end

theorem keeps_apart_iff_two :
    KeepsApart 1 0 0 1 (.fromEmpty 1 0 none) (.fromEmpty 0 1 none) ↔ 1 < 2 ^ 38 ∧ 0 < 2 ^ 38 :=
  keeps_apart_iff (by decide) (by decide) (.finish none) (.finish none)

/-- The sequence number `2 ^ 38` of rank 0 makes the id of the first chunk of rank 1. -/
theorem sequence_becomes_rank :
    (Chunk.fromEmpty (2 ^ 38) 0 none).id = (Chunk.fromEmpty 0 1 none).id ∧
      ¬ KeepsApart (2 ^ 38) 0 0 1 (.fromEmpty (2 ^ 38) 0 none) (.fromEmpty 0 1 none) := by
  refine ⟨by decide, fun h => ?_⟩
  exact absurd (h.eq_iff.mp (by decide)).1 (by decide)

/-! ## Messages -/

namespace Chunk

/-- The chunks that the public functions make. -/
inductive Made : Chunk → Prop where
  | packed (sequence : Nat) (origin : Rank) (destination : Option Rank) (d : PackedData)
      (h : sequence < 2 ^ 64) : Made (fromPackedData sequence origin destination d)
  | finish (sequence : Nat) (origin : Rank) (destination : Option Rank) (h : sequence < 2 ^ 64) :
      Made (fromEmpty sequence origin destination)
  | deserialized (msg : Bytes) (memType : MemoryType) : Made (deserialize msg memType)
  | released {c c' : Chunk} {b : Buffer} (h : Made c) (hb : c.releaseDataBuffer = .ok (b, c')) :
      Made c'
  | attached {c c' : Chunk} {b : Buffer} (h : Made c) (hb : c.attachDataBuffer b = .ok c') :
      Made c'

variable {c c' : Chunk}

/-- The fields of a chunk fit their types, and one without metadata is a finish marker. -/
structure Proper (c : Chunk) : Prop where
  id_lt : c.id < 2 ^ 64
  dataSize_lt : c.dataSize < 2 ^ 64
  finish : c.metadata = none → c.dataSize = 0

theorem chunk_id_lt_word {sequence origin : Nat} (h : sequence < 2 ^ 64) :
    chunkId sequence origin < 2 ^ 64 :=
  Nat.or_lt_two_pow (Nat.mod_lt _ (by decide)) h

theorem Made.proper (h : c.Made) : c.Proper := by
  induction h with
  | packed sequence origin destination d h =>
      exact ⟨chunk_id_lt_word h, d.data.size_lt, fun hnone => by cases hnone⟩
  | finish sequence origin destination h =>
      exact ⟨chunk_id_lt_word h, Nat.two_pow_pos 64, fun _ => rfl⟩
  | deserialized msg memType =>
      have hid : readAt 0 8 msg < 256 ^ 8 := read_at_lt 0 8 msg
      have hsize : readAt 8 8 msg < 256 ^ 8 := read_at_lt 8 8 msg
      rw [deserialize]
      split
      · exact ⟨hid, Nat.two_pow_pos 64, fun _ => rfl⟩
      · exact ⟨hid, hsize, fun hnone => by cases hnone⟩
  | released _ hb ih =>
      rw [releaseDataBuffer] at hb
      split at hb
      · cases hb
        exact ⟨ih.id_lt, ih.dataSize_lt, ih.finish⟩
      · cases hb
  | attached _ hb ih =>
      rw [attachDataBuffer] at hb
      split at hb
      · cases hb
      · split at hb
        · cases hb
        · cases hb
          exact ⟨ih.id_lt, ih.dataSize_lt, ih.finish⟩

/-- What a message has to say of a chunk: all but the destination and the payload. -/
structure SameHead (c c' : Chunk) : Prop where
  id : c'.id = c.id
  isFinish : c'.isFinish = c.isFinish
  metadata : c'.metadata.getD [] = c.metadata.getD []
  dataSize : c'.dataSize = c.dataSize

/-- The chunk that a message is decoded as has the head of the chunk it was made of; a data chunk
has a buffer for its payload. -/
theorem Proper.decoded (h : c.Proper) (memType : MemoryType) :
    SameHead c (deserialize c.serialize memType) ∧
      (c.isFinish = false → ∃ b, (deserialize c.serialize memType).data = some b ∧
        b.size = c.dataSize) := by
  have hid : readAt 0 8 c.serialize = c.id := read_at_zero h.id_lt _
  cases hfinish : c.isFinish with
  | true =>
      have hnone : c.data = none ∧ c.metadata = none := by simpa [isFinish] using hfinish
      have hlength : c.serialize.length = 8 := by simp [serialize, hfinish]
      rw [deserialize, if_pos hlength, hid]
      refine ⟨⟨rfl, hfinish.symm, ?_, (h.finish hnone.2).symm⟩, fun hdata => by cases hdata⟩
      rw [hnone.2]
  | false =>
      have himage : c.serialize =
          toBytes 8 c.id ++ (toBytes 8 c.dataSize ++ c.metadata.getD []) := by
        simp [serialize, hfinish]
      have hlength : ¬ c.serialize.length = 8 := by
        rw [himage]
        simp
      have hsize : readAt 8 8 c.serialize = c.dataSize := by
        rw [himage]
        exact (read_at_skip 8 _ 0 8 _).trans (read_at_zero h.dataSize_lt _)
      have hdrop : c.serialize.drop 16 = c.metadata.getD [] := by
        rw [himage]
        exact (drop_skip 8 _ 8 _).trans (drop_skip 8 _ 0 _)
      rw [deserialize, if_neg hlength, hid, hdrop]
      refine ⟨⟨rfl, hfinish.symm, rfl, hsize⟩, fun _ => ⟨_, rfl, ?_⟩⟩
      rw [Buffer.size, List.length_replicate, hsize]

/-- A chunk comes back from its message as it was, up to its destination and its payload: a finish
marker as a finish marker, a data chunk as a data chunk with a buffer of its size. Chunks with the
same message are the same. -/
theorem message_round_trip (h : c.Made) (h' : c'.Made) (memType : MemoryType) :
    (SameHead c (deserialize c.serialize memType) ∧
      (c.isFinish = false → ∃ b, (deserialize c.serialize memType).data = some b ∧
        b.size = c.dataSize)) ∧
      (c.serialize = c'.serialize → SameHead c c') := by
  refine ⟨h.proper.decoded memType, fun hsame => ?_⟩
  have hdecoded := (h.proper.decoded memType).1
  have hdecoded' := (h'.proper.decoded memType).1
  rw [← hsame] at hdecoded'
  exact ⟨hdecoded'.id.symm.trans hdecoded.id, hdecoded'.isFinish.symm.trans hdecoded.isFinish,
    hdecoded'.metadata.symm.trans hdecoded.metadata,
    hdecoded'.dataSize.symm.trans hdecoded.dataSize⟩

/-- A finish marker and an empty data chunk, whose messages differ. -/
theorem message_round_trip_empty :
    (SameHead (fromEmpty 3 1 none) (deserialize (fromEmpty 3 1 none).serialize .host) ∧
      ((fromEmpty 3 1 none).isFinish = false →
        ∃ b, (deserialize (fromEmpty 3 1 none).serialize .host).data = some b ∧
          b.size = (fromEmpty 3 1 none).dataSize)) ∧
      ((fromEmpty 3 1 none).serialize =
          (fromPackedData 3 1 none ⟨[], .empty .host⟩).serialize →
        SameHead (fromEmpty 3 1 none) (fromPackedData 3 1 none ⟨[], .empty .host⟩)) :=
  message_round_trip (.finish 3 1 none (by decide))
    (.packed 3 1 none ⟨[], .empty .host⟩ (by decide)) .host

end Chunk

end Rapidsmpf.Coll
