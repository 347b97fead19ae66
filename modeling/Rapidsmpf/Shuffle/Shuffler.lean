import Mathlib
import Rapidsmpf.Exchange.Tag
import Rapidsmpf.Shuffle.Chunk

/-!
# One rank's shuffler

`shuffler/finish_counter.cpp` and the part of `shuffler/shuffler.cpp` that works on the members of
one rank's `Shuffler`: inserting chunks, announcing their number in `insert_finished`, and placing
local and received chunks. Counters are 64-bit and wrap around. A fatal error of the source is an
`Except` error with its text.

`insert_into_received` ends with `finish_counter_.add_finished_chunk()`, which takes a lock of its
own; here it is a function of its own, so that other threads can be scheduled in between.
-/

namespace Rapidsmpf.Shuffle

/-! ## The finish counter -/

/-- `detail::FinishCounter`. -/
structure FinishCounter where
  nranks : Nat
  nRanksWithGoalpost : Nat
  totalChunkGoal : Nat
  totalFinishedChunks : Nat
  rankReported : Rank → Bool

namespace FinishCounter

/-- The constructor: a rank without local partitions hears from nobody. -/
def make (nranks nLocalPartitions : Nat) : FinishCounter :=
  ⟨if 0 < nLocalPartitions then nranks else 0, 0, 0, 0, fun _ => false⟩

/-- `all_finished`. -/
def allFinished (f : FinishCounter) : Bool :=
  f.nRanksWithGoalpost == f.nranks && f.totalFinishedChunks == f.totalChunkGoal

/-- `move_goalpost`. -/
def moveGoalpost (srcRank nchunks : Nat) (f : FinishCounter) : Except String FinishCounter :=
  if nchunks = 0 then throw "the goalpost was moved by 0 chunks"
  else if ¬ srcRank < f.nranks then throw "Invalid source rank in move_goalpost"
  else if f.rankReported srcRank then
    throw "the goalpost was moved more than once for the same rank"
  else
    pure { f with
      rankReported := Function.update f.rankReported srcRank true
      nRanksWithGoalpost := f.nRanksWithGoalpost + 1
      totalChunkGoal := (f.totalChunkGoal + nchunks) % 2 ^ 64 }

/-- `add_finished_chunk`. -/
def addFinishedChunk (f : FinishCounter) : Except String FinishCounter :=
  let f := { f with totalFinishedChunks := (f.totalFinishedChunks + 1) % 2 ^ 64 }
  if f.nRanksWithGoalpost < f.nranks ∨ f.totalFinishedChunks ≤ f.totalChunkGoal then pure f
  else throw "finished chunks exceed the goal"

end FinishCounter

/-! ## The members of the shuffler -/

/-- What all ranks of a shuffle agree on. A `PartID` is a `std::uint32_t`, a `Rank` a
`std::int32_t`. -/
structure Config where
  nranks : Nat
  totalNumPartitions : Nat
  partitionOwner : PartID → Rank
  nranks_lt : nranks < 2 ^ 31
  partitions_pos : 0 < totalNumPartitions
  partitions_lt : totalNumPartitions < 2 ^ 32
  owner_lt : ∀ p < totalNumPartitions, partitionOwner p < nranks

theorem two_ranks_lt : 2 < 2 ^ 31 := by decide

theorem one_partition_lt : 1 < 2 ^ 32 := by decide

/-- Two ranks, and one partition with its owner. -/
def Config.ofOwner (owner : Rank) (h : owner < 2) : Config where
  nranks := 2
  totalNumPartitions := 1
  partitionOwner := fun _ => owner
  nranks_lt := two_ranks_lt
  partitions_pos := Nat.one_pos
  partitions_lt := one_partition_lt
  owner_lt := fun _ _ => h

/-- `local_partitions`. -/
def localPartitions (cfg : Config) (rank : Rank) : List PartID :=
  (List.range cfg.totalNumPartitions).filter fun p => cfg.partitionOwner p = rank

/-- The members of `Shuffler`. -/
structure Shuffler where
  toSend : List Chunk
  received : PartID → List Chunk
  finishCounter : FinishCounter
  outboundChunkCounter : Rank → Nat
  chunkIdCounter : Nat
  locallyFinished : Bool
  active : Bool
  canExtract : Bool

/-- The members after construction. -/
def Shuffler.initial (cfg : Config) (rank : Rank) : Shuffler where
  toSend := []
  received := fun _ => []
  finishCounter := .make cfg.nranks (localPartitions cfg rank).length
  outboundChunkCounter := fun _ => 0
  chunkIdCounter := 0
  locallyFinished := false
  active := true
  canExtract := false

/-- `chunk_id_counter_bits`. -/
def chunkIdCounterBits : Nat := 38

/-- `get_new_cid`. -/
def getNewCid (rank : Rank) (s : Shuffler) : Nat × Shuffler :=
  let lower := (s.chunkIdCounter + 1) % 2 ^ 64
  (rank <<< chunkIdCounterBits % 2 ^ 64 ||| lower, { s with chunkIdCounter := lower })

/-- `extract_rank`. -/
def extractRank (cid : Nat) : Rank := cid >>> chunkIdCounterBits

/-- `insert_into_received` up to its call of `add_finished_chunk`. -/
def insertIntoReceived (c : Chunk) (s : Shuffler) : Except String Shuffler :=
  if c.isControlMessage then do
    let f ← s.finishCounter.moveGoalpost (extractRank c.chunkId) c.expectedNumChunks
    pure { s with finishCounter := f }
  else
    pure { s with received := Function.update s.received c.partId (s.received c.partId ++ [c]) }

/-- The call of `add_finished_chunk` at the end of `insert_into_received`. -/
def addFinishedChunk (s : Shuffler) : Except String Shuffler := do
  let f ← s.finishCounter.addFinishedChunk
  pure { s with finishCounter := f }

/-- Whether the chunk can be sent from its memory type. -/
def sendable (c : Chunk) : Bool :=
  c.data.all fun data => addressableMemoryTypes.contains data.memType

/-- Count a chunk that is no control message for its destination. -/
def countOutbound (dst : Rank) (c : Chunk) (s : Shuffler) : Shuffler :=
  if c.isControlMessage then s
  else
    let n := (s.outboundChunkCounter dst + 1) % 2 ^ 64
    { s with outboundChunkCounter := Function.update s.outboundChunkCounter dst n }

/-- `insert(Chunk)`, for a local chunk up to `add_finished_chunk`. -/
def insertChunk (cfg : Config) (rank : Rank) (c : Chunk) (s : Shuffler) :
    Except String Shuffler :=
  let dst := cfg.partitionOwner c.partId
  if ¬ (dst = rank ∨ sendable c) then
    throw "data for another rank is not in a sendable memory type"
  else
    let s := countOutbound dst c s
    if dst = rank then insertIntoReceived c s
    else pure { s with toSend := s.toSend ++ [c] }

/-- One element of `insert(std::unordered_map<PartID, PackedData>)`: packed data that is not empty
becomes a chunk, its payload in the memory type that `ensure_memory_type` and spilling left it
in. -/
def insert (cfg : Config) (rank : Rank) (pid : PartID) (d : PackedData) (memType : MemoryType)
    (s : Shuffler) : Except String Shuffler :=
  if s.locallyFinished then throw "Can't insert after locally indicating finished"
  else if d.empty then pure s
  else
    let (cid, s) := getNewCid rank s
    insertChunk cfg rank
      (.fromPackedData cid pid { d with data := { d.data with memType := memType } }) s

/-- `representative_pid` of a rank: the last partition it owns, or the number of partitions. -/
def representativePid (cfg : Config) (rank : Rank) : PartID :=
  (List.range cfg.totalNumPartitions).foldl
    (fun rep p => if cfg.partitionOwner p = rank then p else rep) cfg.totalNumPartitions

/-- The iteration of `insert_finished` for the rank `r`. -/
def insertFinishedFor (cfg : Config) (rank : Rank) (r : Rank) (s : Shuffler) :
    Except String Shuffler :=
  let pid := representativePid cfg r
  if pid = cfg.totalNumPartitions then pure s  -- rank owns no partitions
  else
    let (cid, s) := getNewCid rank s
    insertChunk cfg rank
      (.fromFinishedPartition cid pid ((s.outboundChunkCounter r + 1) % 2 ^ 64)) s

/-- The end of `insert_finished`. -/
def storeLocallyFinished (s : Shuffler) : Shuffler := { s with locallyFinished := true }

/-- `extract_ready` when the first `k` chunks are the ready prefix. -/
def extractReady (k : Nat) (s : Shuffler) : List Chunk × Shuffler :=
  (s.toSend.take k, { s with toSend := s.toSend.drop k })

/-- `convert_chunks_to_messages`. -/
def convertChunkToMessage (cfg : Config) (c : Chunk) : Exchange.Message :=
  ⟨cfg.partitionOwner c.partId, c.serialize, c.data⟩

/-- The chunk of a received message. -/
def chunkOfMessage (cfg : Config) (rank : Rank) (memType : MemoryType) (m : Exchange.Message) :
    Except String Chunk :=
  let c := Chunk.deserialize m.metadata memType m.data
  if cfg.partitionOwner c.partId = rank then pure c
  else throw "receiving chunk not owned by us"

/-! ## What the functions do -/

variable {cfg : Config} {rank r : Rank}

theorem representative_pid_eq (cfg : Config) (r : Rank) :
    (representativePid cfg r = cfg.totalNumPartitions ∧ localPartitions cfg r = [])
      ∨ (representativePid cfg r < cfg.totalNumPartitions
        ∧ cfg.partitionOwner (representativePid cfg r) = r) := by
  have hloop : ∀ (l : List PartID) (rep : PartID),
      l.foldl (fun rep p => if cfg.partitionOwner p = r then p else rep) rep = rep
          ∧ l.filter (fun p => cfg.partitionOwner p = r) = []
        ∨ l.foldl (fun rep p => if cfg.partitionOwner p = r then p else rep) rep ∈ l
          ∧ cfg.partitionOwner
            (l.foldl (fun rep p => if cfg.partitionOwner p = r then p else rep) rep) = r := by
    intro l
    induction l with
    | nil => exact fun rep => Or.inl ⟨rfl, rfl⟩
    | cons p l ih =>
        intro rep
        by_cases hp : cfg.partitionOwner p = r
        · simp only [List.foldl_cons, if_pos hp]
          rcases ih p with ⟨heq, _⟩ | ⟨hmem, howner⟩
          · exact Or.inr ⟨by simp [heq], by rw [heq, hp]⟩
          · exact Or.inr ⟨by simp [hmem], howner⟩
        · simp only [List.foldl_cons, if_neg hp]
          rcases ih rep with ⟨heq, hnone⟩ | ⟨hmem, howner⟩
          · exact Or.inl ⟨heq, by simp [hp, hnone]⟩
          · exact Or.inr ⟨by simp [hmem], howner⟩
  rcases hloop (List.range cfg.totalNumPartitions) cfg.totalNumPartitions with
    ⟨heq, hnone⟩ | ⟨hmem, howner⟩
  · exact Or.inl ⟨heq, hnone⟩
  · exact Or.inr ⟨List.mem_range.mp hmem, howner⟩

end Rapidsmpf.Shuffle
