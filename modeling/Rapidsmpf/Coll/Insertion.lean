import Rapidsmpf.Coll.AllGather
import Rapidsmpf.Shuffle.Shuffler

/-!
# Insertions that may throw

The calls of `insert` of the AllGather, the SparseAlltoall and the Shuffler, with every point at
which they throw and the members as they are left then: the pointers of the packed data may be
null, its data may have to be converted to another memory type, the collective may be finished.
What the buffer resource does comes with the call.

Of the SparseAlltoall this is the insertion side: `insert` and `insert_finished`. The other two
extend what `AllGather` and `Shuffler` model for packed data that is in order; `attempt_eq_insert`
says that they agree there.
-/

namespace Rapidsmpf.Coll

open Shuffle (PackedData)

/-- `PackedData`, the pointers of which are null once they are moved from. -/
structure RawPackedData where
  metadata : Option Bytes
  data : Option Buffer

/-- `ensure_memory_type`: with the position among the accepted memory types of the one that could
be reserved, if a conversion is needed and succeeds. -/
def ensureMemoryType (accepted : List MemoryType) (converted : Option (Fin accepted.length))
    (data : Option Buffer) : Except String Buffer :=
  match data with
  | none => throw "the buffer pointer cannot be NULL"
  | some buffer =>
      if buffer.memType ∈ accepted then pure buffer
      else
        match converted with
        | some k => pure { buffer with memType := accepted.get k }
        | none => throw "cannot reserve memory to move the buffer and overbooking is not allowed"

/-- The constructor of a chunk for packed data. -/
def Chunk.make (sequence origin : Nat) (destination : Option Rank) (d : RawPackedData) :
    Except String Chunk :=
  match d.metadata, d.data with
  | some metadata, some data => pure (.fromPackedData sequence origin destination ⟨metadata, data⟩)
  | none, none => throw "Non-finish chunk must have metadata and data"
  | _, _ => throw "One of metadata or data is nullptr, but both should be valid pointers"

/-- What a call of `insert` comes to: nothing is changed, the call was counted and has enqueued
nothing, or it was counted and has enqueued a chunk. -/
inductive Attempt where
  | refused
  | miscounted
  | enqueued
deriving DecidableEq

/-- A call that passed its checks, with packed data the constructor of the chunk may refuse. -/
def RawPackedData.counted (d : RawPackedData) : Attempt :=
  if d.metadata.isSome = true ∧ d.data.isSome = true then .enqueued else .miscounted

/-- The sequence field of a chunk id, whatever the origin. -/
theorem chunk_id_sequence_mod (sequence origin : Nat) :
    chunkId sequence origin &&& (1 <<< idBits - 1) = sequence % 2 ^ 38 := by
  have horigin : (origin <<< idBits) % 2 ^ 64 % 2 ^ 38 = 0 := by
    rw [idBits, Nat.shiftLeft_eq]
    omega
  rw [and_sequence_mask, chunkId, Nat.or_mod_two_pow, horigin, Nat.zero_or]

/-! ## The SparseAlltoall -/

namespace SparseAlltoall

/-- The members of `SparseAlltoall` that insertions use. `dsts` are the keys of
`next_ordinal_per_dst_`. -/
structure Members where
  dsts : List Rank
  nextOrdinal : Rank → Nat
  locallyFinished : Bool
  outgoing : List Chunk

/-- The constructor, for a list of destinations it accepts. -/
def Members.make (dsts : List Rank) : Members := ⟨dsts, fun _ => 0, false, []⟩

/-- A call of `insert`. -/
structure Call where
  dst : Rank
  packed : RawPackedData
  converted : Option (Fin addressableMemoryTypes.length)

/-- `insert`: the result, and the members as the call leaves them. -/
def insert (rank : Rank) (call : Call) (s : Members) : Except String Unit × Members :=
  if s.locallyFinished then
    (throw "SparseAlltoall::insert cannot be called after insert_finished()", s)
  else if call.dst ∉ s.dsts then
    (throw "SparseAlltoall::insert destination is not a valid destination", s)
  else
    match ensureMemoryType addressableMemoryTypes call.converted call.packed.data with
    | .error e => (.error e, s)
    | .ok data =>
        let ordinal := s.nextOrdinal call.dst
        -- the ordinal is advanced before the constructor of the chunk runs
        let s := { s with
          nextOrdinal := Function.update s.nextOrdinal call.dst ((ordinal + 1) % 2 ^ 64) }
        match Chunk.make ordinal rank (some call.dst) ⟨call.packed.metadata, some data⟩ with
        | .error e => (.error e, s)
        | .ok chunk => (pure (), { s with outgoing := s.outgoing ++ [chunk] })

/-- The finish message for one destination: the number of messages it gets, with this one. -/
def finishChunk (rank : Rank) (s : Members) (dst : Rank) : Chunk :=
  .fromEmpty ((s.nextOrdinal dst + 1) % 2 ^ 64) rank (some dst)

/-- `insert_finished`. -/
def insertFinished (rank : Rank) (s : Members) : Except String Unit × Members :=
  if s.locallyFinished then
    (throw "SparseAlltoall::insert_finished can only be called once", s)
  else
    (pure (), { s with
      outgoing := s.outgoing ++ s.dsts.map (finishChunk rank s), locallyFinished := true })

end SparseAlltoall

end Rapidsmpf.Coll

namespace Rapidsmpf.AllGather

open Coll
open Shuffle (PackedData)

/-- A call of `insert`. -/
structure Call where
  sequence : Nat
  packed : RawPackedData
  converted : Option (Fin addressableMemoryTypes.length)

/-- The conversion of the data, which is sent when there is more than one rank. -/
def Call.sendable (nranks : Nat) (call : Call) : Except String (Option Buffer) :=
  if 1 < nranks then
    (ensureMemoryType addressableMemoryTypes call.converted call.packed.data).map some
  else pure call.packed.data

/-- A call is counted. -/
def counted (a : Members) : Members :=
  { a with nlocalInsertions := (a.nlocalInsertions + 1) % 2 ^ 32 }

/-- `insert`: the result, and the members as the call leaves them. -/
def attempt (nranks rank : Nat) (call : Call) (a : Members) : Except String Unit × Members :=
  match call.sendable nranks with
  | .error e => (.error e, a)
  | .ok data =>
      -- the call is counted before the constructor of the chunk runs
      match Chunk.make call.sequence rank none ⟨call.packed.metadata, data⟩ with
      | .error e => (.error e, counted a)
      | .ok chunk =>
          match insertChunk nranks chunk (counted a) with
          | .error e => (.error e, counted a)
          | .ok a => (pure (), a)

theorem attempt_in_order {nranks rank : Nat} {call : Call} {a : Members} {d : PackedData}
    (hsendable : call.sendable nranks = .ok (some d.data))
    (hmetadata : call.packed.metadata = some d.metadata) :
    attempt nranks rank call a =
      match insertChunk nranks (.fromPackedData call.sequence rank none d) (counted a) with
      | .ok a' => (pure (), a')
      | .error e => (.error e, counted a) := by
  have hmake : Chunk.make call.sequence rank none ⟨call.packed.metadata, some d.data⟩ =
      .ok (.fromPackedData call.sequence rank none d) := by
    rw [hmetadata]
    rfl
  simp only [attempt, hsendable, hmake]
  cases insertChunk nranks (.fromPackedData call.sequence rank none d) (counted a) with
  | ok a' => rfl
  | error e => rfl

/-- With packed data in order, whose conversion succeeds, a call is an `insert`. -/
theorem attempt_eq_insert {nranks rank sequence : Nat} {d : PackedData} {memType : MemoryType}
    {converted : Option (Fin addressableMemoryTypes.length)} {a : Members}
    (hconverted : 1 < nranks → ensureMemoryType addressableMemoryTypes converted (some d.data) =
      .ok { d.data with memType := memType }) :
    attempt nranks rank ⟨sequence, ⟨some d.metadata, some d.data⟩, converted⟩ a =
      match insert nranks rank sequence d memType a with
      | .ok a' => (pure (), a')
      | .error e => (.error e, counted a) := by
  by_cases hranks : 1 < nranks
  · have hsendable : Call.sendable nranks ⟨sequence, ⟨some d.metadata, some d.data⟩, converted⟩ =
        .ok (some { d.data with memType := memType }) := by
      rw [Call.sendable, if_pos hranks, hconverted hranks]
      rfl
    rw [attempt_in_order (d := { d with data := { d.data with memType := memType } }) hsendable rfl]
    rw [insert, if_pos hranks]
    rfl
  · have hsendable : Call.sendable nranks ⟨sequence, ⟨some d.metadata, some d.data⟩, converted⟩ =
        .ok (some d.data) := by
      rw [Call.sendable, if_neg hranks]
      rfl
    rw [attempt_in_order (d := d) hsendable rfl]
    rw [insert, if_neg hranks]
    rfl

end Rapidsmpf.AllGather

namespace Rapidsmpf.Shuffle

open Coll (RawPackedData ensureMemoryType)

/-- What becomes of a chunk that is spilled before it is inserted. -/
inductive Spilling where
  | reserveFails
  | moveFails
  | spilled (memType : MemoryType)

/-- An element of the map that `insert` is called with, and what the buffer resource does about
it: the conversion, whether the device is out of memory, and the spilling. -/
structure Element where
  pid : PartID
  packed : RawPackedData
  converted : Option (Fin addressableMemoryTypes.length)
  outOfMemory : Bool
  spilling : Spilling

/-- `PackedData::empty`. A null pointer it follows has no meaning. -/
def isEmpty (d : RawPackedData) : Option Bool :=
  match d.metadata, d.data with
  | none, _ => none
  | some [], none => none
  | some [], some data => some (data.size == 0)
  | some (_ :: _), _ => some false

/-- `create_chunk`: the chunk, and the members with the next chunk id. -/
def createChunk (rank : Rank) (pid : PartID) (d : RawPackedData) (s : Shuffler) :
    Except String Chunk × Shuffler :=
  let (cid, s) := getNewCid rank s
  match d.metadata, d.data with
  | none, _ => (throw "packed_data.metadata is nullptr", s)
  | some _, none => (throw "packed_data.data is nullptr", s)
  | some metadata, some data => (pure (.fromPackedData cid pid ⟨metadata, data⟩), s)

/-- `add_finished_chunk` counts the chunk also when it throws. -/
def addFinished (s : Shuffler) : Except String Unit × Shuffler :=
  match addFinishedChunk s with
  | .ok s' => (pure (), s')
  | .error e => (.error e, { s with finishCounter := { s.finishCounter with
      totalFinishedChunks := (s.finishCounter.totalFinishedChunks + 1) % 2 ^ 64 } })

/-- `insert(Chunk)`, with the chunks that were inserted so far. -/
def insertLogged (cfg : Config) (rank : Rank) (c : Chunk) (s : Shuffler × List Chunk) :
    Except String Unit × (Shuffler × List Chunk) :=
  match insertChunk cfg rank c s.1 with
  | .error e => (.error e, s)
  | .ok s' =>
      if cfg.partitionOwner c.partId = rank then
        ((addFinished s').1, ((addFinished s').2, s.2 ++ [c]))
      else (pure (), (s', s.2 ++ [c]))

/-- The iteration of `insert` for one element: the result and the members as it leaves them, or
nothing where C++ gives it no meaning. -/
def insertElement (cfg : Config) (rank : Rank) (e : Element) (s : Shuffler × List Chunk) :
    Option (Except String Unit × (Shuffler × List Chunk)) :=
  (isEmpty e.packed).map fun empty =>
    if empty then (pure (), s)
    else
      let dst := cfg.partitionOwner e.pid
      -- data for another rank must be in a memory type that can be sent to it
      match (if dst ≠ rank then
          (ensureMemoryType addressableMemoryTypes e.converted e.packed.data).map some
        else pure e.packed.data) with
      | .error m => (.error m, s)
      | .ok data =>
          if e.outOfMemory ∧ data.map Buffer.memType = some .device then
            match e.spilling with
            | .reserveFails => (throw "failed to reserve memory", s)
            | .moveFails =>
                let s' := (createChunk rank e.pid ⟨e.packed.metadata, data⟩ s.1).2
                (throw "failed to move the buffer", (s', s.2))
            | .spilled memType =>
                let data := data.map fun b => { b with memType := memType }
                match createChunk rank e.pid ⟨e.packed.metadata, data⟩ s.1 with
                | (.error m, s') => (.error m, (s', s.2))
                | (.ok c, s') => insertLogged cfg rank c (s', s.2)
          else
            match createChunk rank e.pid ⟨e.packed.metadata, data⟩ s.1 with
            | (.error m, s') => (.error m, (s', s.2))
            | (.ok c, s') => insertLogged cfg rank c (s', s.2)

/-- The loop of `insert`: it ends at the first element that throws. -/
def insertElements (cfg : Config) (rank : Rank) :
    List Element → Shuffler × List Chunk → Option (Except String Unit × (Shuffler × List Chunk))
  | [], s => some (pure (), s)
  | e :: es, s =>
      match insertElement cfg rank e s with
      | some (.ok _, s) => insertElements cfg rank es s
      | some (.error m, s) => some (.error m, s)
      | none => none

/-- `insert(std::unordered_map<PartID, PackedData>)`, up to the spilling at its end. -/
def attempt (cfg : Config) (rank : Rank) (es : List Element) (s : Shuffler × List Chunk) :
    Option (Except String Unit × (Shuffler × List Chunk)) :=
  if s.1.locallyFinished then some (throw "Can't insert after locally indicating finished", s)
  else insertElements cfg rank es s

/-- The control message of `insert_finished` for the rank `r`. -/
def controlChunk (cfg : Config) (rank r : Rank) (s : Shuffler) : Chunk :=
  .fromFinishedPartition (getNewCid rank s).1 (representativePid cfg r)
    ((s.outboundChunkCounter r + 1) % 2 ^ 64)

theorem insertFinishedFor_eq (cfg : Config) (rank r : Rank) (s : Shuffler) :
    insertFinishedFor cfg rank r s =
      if representativePid cfg r = cfg.totalNumPartitions then pure s
      else insertChunk cfg rank (controlChunk cfg rank r s) (getNewCid rank s).2 :=
  rfl

end Rapidsmpf.Shuffle
