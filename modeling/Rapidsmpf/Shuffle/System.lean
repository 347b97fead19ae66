import Rapidsmpf.Lib.Transition
import Rapidsmpf.Shuffle.Shuffler

/-!
# All ranks of a shuffle

Any number of ranks shuffle over an exchange that delivers every message once, in any order. The
steps are those of the application threads (`insert`, the iterations of `insert_finished`,
`extract`), of the progress threads (submitting ready chunks, placing a delivered one), and the
calls of `add_finished_chunk`, which follow the placing of a chunk at any later time.
-/

namespace Rapidsmpf.Shuffle

open Protocol

/-! ## The system -/

/-- Where the application thread of a rank is: inserting, in the loop of `insert_finished` with
the next rank to announce to, or past it. -/
inductive Phase where
  | inserting
  | finishing (next : Rank)
  | finished
deriving DecidableEq

/-- All ranks: their shufflers, the calls of `add_finished_chunk` that are due, and the messages
handed to the exchange for each destination and not delivered yet. The last four members record
the history: what `extract` returned, the chunks a rank created for another one, the chunks placed
by `insert_into_received`, and the packed data inserted for a partition. -/
structure Ranks where
  shuffler : Rank → Shuffler
  phase : Rank → Phase
  pending : Rank → Nat
  inFlight : Rank → List Exchange.Message
  extracted : Rank → PartID → List Chunk
  created : Rank → Rank → List Chunk.Info
  placed : Rank → List Chunk.Info
  inserted : Rank → PartID → List (Bytes × Bytes)

/-- The ranks before any call. -/
def Ranks.initial (cfg : Config) : Ranks where
  shuffler := fun r => .initial cfg r
  phase := fun _ => .inserting
  pending := fun _ => 0
  inFlight := fun _ => []
  extracted := fun _ _ => []
  created := fun _ _ => []
  placed := fun _ => []
  inserted := fun _ _ => []

/-- The steps of the ranks. -/
inductive Label where
  | insert (q : Rank) (pid : PartID) (d : PackedData) (memType : MemoryType)
  | startFinish (q : Rank)
  | finishFor (q : Rank)
  | finishDone (q : Rank)
  | submit (q : Rank) (ready : Nat)
  | deliver (r : Rank) (position : Nat) (memType : MemoryType)
  | addFinished (r : Rank)
  | extract (r : Rank) (pid : PartID)

/-- The rank that takes a step. -/
def Label.rank : Label → Rank
  | insert q _ _ _ | startFinish q | finishFor q | finishDone q | submit q _ => q
  | deliver r _ _ | addFinished r | extract r _ => r

namespace Ranks

/-- Store the shuffler of a rank. -/
def put (q : Rank) (sh : Shuffler) (s : Ranks) : Ranks :=
  { s with shuffler := Function.update s.shuffler q sh }

/-- A chunk was placed: record it, and that `add_finished_chunk` is due. -/
def logPlaced (r : Rank) (i : Chunk.Info) (s : Ranks) : Ranks :=
  { s with
    placed := Function.update s.placed r (s.placed r ++ [i])
    pending := Function.update s.pending r (s.pending r + 1) }

/-- A chunk was created for a destination: record it. -/
def logCreated (q dst : Rank) (i : Chunk.Info) (s : Ranks) : Ranks :=
  { s with created := fun a b => if a = q ∧ b = dst then s.created a b ++ [i] else s.created a b }

/-- The rank `q` called `insert(Chunk)`. -/
def logInsert (cfg : Config) (q : Rank) (c : Chunk) (s : Ranks) : Ranks :=
  let dst := cfg.partitionOwner c.partId
  let s := s.logCreated q dst c.info
  if dst = q then s.logPlaced q c.info else s

/-- Packed data was inserted for a partition: record it. -/
def logInserted (q : Rank) (pid : PartID) (d : PackedData) (s : Ranks) : Ranks :=
  { s with inserted := fun a p =>
      if a = q ∧ p = pid then s.inserted a p ++ [d.content] else s.inserted a p }

end Ranks

/-- What the exchange delivers of a payload: the same bytes in some memory type, and nothing for
an empty payload. -/
def deliveredData (memType : MemoryType) (data : Option Buffer) : Option Buffer :=
  data.bind fun b => if 0 < b.size then some { b with memType := memType } else none

/-- The chunk the element of `insert` creates. -/
def insertedChunk (q : Rank) (pid : PartID) (d : PackedData) (memType : MemoryType)
    (sh : Shuffler) : Chunk :=
  .fromPackedData (getNewCid q sh).1 pid { d with data := { d.data with memType := memType } }

/-- The control message `insert_finished` creates for the rank `r`. -/
def finishChunk (cfg : Config) (q r : Rank) (sh : Shuffler) : Chunk :=
  .fromFinishedPartition (getNewCid q sh).1 (representativePid cfg r)
    ((sh.outboundChunkCounter r + 1) % 2 ^ 64)

/-- One step. -/
def step (cfg : Config) : Label → Ranks → Except String Ranks
  | .insert q pid d memType, s =>
      if s.phase q ≠ .inserting then throw "insert() after insert_finished()"
      else if ¬ pid < cfg.totalNumPartitions then throw "no such partition"
      else do
        let sh ← insert cfg q pid d memType (s.shuffler q)
        if d.empty then pure (s.put q sh)
        else
          pure (((s.logInserted q pid d).logInsert cfg q
            (insertedChunk q pid d memType (s.shuffler q))).put q sh)
  | .startFinish q, s =>
      if s.phase q = .inserting then
        pure { s with phase := Function.update s.phase q (.finishing 0) }
      else throw "insert_finished() called twice"
  | .finishFor q, s =>
      match s.phase q with
      | .finishing r =>
          if r < cfg.nranks then do
            let sh ← insertFinishedFor cfg q r (s.shuffler q)
            let s := { s with phase := Function.update s.phase q (.finishing (r + 1)) }
            if representativePid cfg r = cfg.totalNumPartitions then pure (s.put q sh)
            else pure ((s.logInsert cfg q (finishChunk cfg q r (s.shuffler q))).put q sh)
          else throw "announced to all ranks"
      | _ => throw "not in insert_finished()"
  | .finishDone q, s =>
      if s.phase q = .finishing cfg.nranks then
        pure ({ s with phase := Function.update s.phase q .finished }.put q
          (storeLocallyFinished (s.shuffler q)))
      else throw "not announced to all ranks"
  | .submit q ready, s =>
      let (chunks, sh) := extractReady ready (s.shuffler q)
      let messages := chunks.map (convertChunkToMessage cfg)
      if messages.any fun m => m.peerRank = q then throw "sending message to ourselves"
      else
        let inFlight := fun r => s.inFlight r ++ messages.filter fun m => m.peerRank = r
        pure ({ s with inFlight := inFlight }.put q sh)
  | .deliver r position memType, s =>
      match (s.inFlight r)[position]? with
      | none => throw "no such message"
      | some m => do
          let c ← chunkOfMessage cfg r memType { m with data := deliveredData memType m.data }
          let sh ← insertIntoReceived c (s.shuffler r)
          let s := { s with
            inFlight := Function.update s.inFlight r ((s.inFlight r).eraseIdx position) }
          pure ((s.logPlaced r c.info).put r sh)
  | .addFinished r, s =>
      if s.pending r = 0 then throw "no call of add_finished_chunk is due"
      else do
        let sh ← addFinishedChunk (s.shuffler r)
        pure ({ s with pending := Function.update s.pending r (s.pending r - 1) }.put r sh)
  | .extract r pid, s =>
      let sh := s.shuffler r
      let chunks := s.extracted r pid ++ sh.received pid
      let extracted := Function.update s.extracted r (Function.update (s.extracted r) pid chunks)
      pure ({ s with extracted := extracted }.put r
        { sh with received := Function.update sh.received pid [] })

/-- The ranks as a transition system. -/
def system (cfg : Config) : System Ranks Label where
  init := fun s => s = .initial cfg
  step := fun s l s' => l.rank < cfg.nranks ∧ step cfg l s = .ok s'

end Rapidsmpf.Shuffle
