import Rapidsmpf.Lib.Circular
import Rapidsmpf.Lib.Transition
import Rapidsmpf.Coll.Chunk

/-!
# The AllGather collective

`coll/allgather.cpp`: `insert`, `insert_finished` and the `event_loop` of one rank, and any number
of ranks in a ring that run one AllGather after the other on the same `op_id`. What `event_loop`
finds outside the rank (which writes are done, which messages have arrived, which sends and
receives are complete) is its environment, `Env`.
-/

namespace Rapidsmpf.AllGather

open Protocol Coll Circular
open Shuffle (PackedData)

/-! ## One rank -/

/-- The members of `AllGather`. `sent_posted_` and `sent_futures_`, and `receive_posted_` and
`receive_futures_`, whose orders match, are one list each; a send future owns the payload. -/
structure Members where
  finishCounter : Int
  nlocalInsertions : Nat
  extractionGoalpost : Nat
  locallyFinished : Bool
  canExtract : Bool
  inserted : List Chunk
  forExtraction : List Chunk
  remoteFinishCounter : Int
  numExpectedMessages : Nat
  numReceivedMessages : Nat
  toReceive : List Chunk
  fireAndForget : Nat
  sentPosted : List (Chunk × Buffer)
  receivePosted : List (Chunk × RecvFuture)

/-- The constructor. -/
def Members.make (nranks : Nat) : Members where
  finishCounter := nranks
  nlocalInsertions := 0
  extractionGoalpost := 0
  locallyFinished := false
  canExtract := false
  inserted := []
  forExtraction := []
  remoteFinishCounter := nranks - 1
  numExpectedMessages := 0
  numReceivedMessages := 0
  toReceive := []
  fireAndForget := 0
  sentPosted := []
  receivePosted := []

/-- What a call of `event_loop` finds: whether the latest write of each chunk in `inserted_` is
done, how many metadata messages have arrived, the memory type for the payload of each, whether
the buffer of each chunk in `to_receive_` is ready, the receives and the sends that are complete,
in the order they are reported and by their position among those still posted, and how many
fire-and-forget sends are complete. -/
structure Env where
  written : Nat → Bool
  arrived : Nat
  memType : Nat → MemoryType
  allocated : Nat → Bool
  received : List Nat
  sent : List Nat
  sendsCompleted : Nat

/-- The members of a rank together with the channels. -/
abbrev State := Members × Comm

/-- `mark_finish`. -/
def markFinish (expectedChunks : Nat) (a : Members) : Members :=
  { a with
    extractionGoalpost := a.extractionGoalpost + expectedChunks
    finishCounter := a.finishCounter - 1 }

/-- `insert(std::unique_ptr<Chunk>)`. -/
def insertChunk (nranks : Nat) (chunk : Chunk) (a : Members) : Except String Members :=
  if a.locallyFinished then throw "Can't insert after locally indicating finished"
  else if ¬ (nranks = 1 ∨ (chunk.data.map Buffer.memType).getD .host ∈ addressableMemoryTypes) then
    throw "the chunk's memory type is not sendable"
  else pure { a with inserted := a.inserted ++ [chunk] }

/-- `insert`. With more than one rank the data is moved to the memory type that
`ensure_memory_type` chooses. -/
def insert (nranks rank sequence : Nat) (d : PackedData) (memType : MemoryType) (a : Members) :
    Except String Members :=
  let d := if 1 < nranks then { d with data := { d.data with memType := memType } } else d
  let a := { a with nlocalInsertions := (a.nlocalInsertions + 1) % 2 ^ 32 }
  insertChunk nranks (.fromPackedData sequence rank none d) a

/-- `insert_finished`. -/
def insertFinished (rank : Nat) (a : Members) : Members :=
  { a with
    inserted := a.inserted ++ [.fromEmpty a.nlocalInsertions rank none]
    locallyFinished := true }

section EventLoop

variable (nranks rank stamp : Nat)

/-- The iteration of the first loop for a chunk that is ready. -/
def sendChunk (s : State) (chunk : Chunk) : Except String State :=
  let dst := succ nranks rank
  let (a, c) := s
  let c := c.sendMetadata rank dst stamp chunk.serialize
  let a := { a with fireAndForget := a.fireAndForget + 1 }
  if chunk.isFinish then pure (markFinish chunk.sequence a, c)
  else do
    let (buf, chunk) ← chunk.releaseDataBuffer
    pure ({ a with sentPosted := a.sentPosted ++ [(chunk, buf)] }, c.sendPayload rank dst stamp buf)

/-- The loop over `inserted_.extract_ready()`. -/
def sendReady (written : Nat → Bool) (s : State) : Except String State :=
  let (ready, rest) := extractReady written s.1.inserted
  ready.foldlM (sendChunk nranks rank stamp) ({ s.1 with inserted := rest }, s.2)

/-- The guard of the metadata loop: more messages are needed. -/
def needsMore (a : Members) : Bool :=
  decide (0 < a.remoteFinishCounter) || decide (a.numReceivedMessages < a.numExpectedMessages)

/-- The body of the metadata loop for a message. -/
def receiveMessage (chunk : Chunk) (s : State) : State :=
  let dst := succ nranks rank
  let (a, c) := s
  if chunk.isFinish then
    let a := { a with
      remoteFinishCounter := a.remoteFinishCounter - 1
      numExpectedMessages := a.numExpectedMessages + chunk.sequence }
    if chunk.origin ≠ dst then
      (markFinish chunk.sequence { a with fireAndForget := a.fireAndForget + 1 },
        c.sendMetadata rank dst stamp chunk.serialize)
    else (markFinish chunk.sequence a, c)
  else
    ({ a with
      numReceivedMessages := a.numReceivedMessages + 1
      toReceive := a.toReceive ++ [chunk] }, c)

/-- The metadata loop, when at most `arrived` messages have arrived. -/
def receiveMetadata (memType : Nat → MemoryType) : Nat → State → State
  | 0, s => s
  | arrived + 1, s =>
      if needsMore s.1 then
        match s.2.recvFrom (pred nranks rank) rank stamp with
        | none => s
        | some (msg, c) =>
            receiveMetadata memType arrived
              (receiveMessage nranks rank stamp (.deserialize msg (memType arrived)) (s.1, c))
      else s

/-- How many chunks at the front are ready. -/
def readyFront : (Nat → Bool) → List Chunk → Nat
  | _, [] => 0
  | allocated, chunk :: chunks =>
      if chunk.isReady (allocated 0) then readyFront (fun k => allocated (k + 1)) chunks + 1 else 0

/-- Post the receive of the first chunk of `to_receive_`. -/
def postReceive (s : State) : Except String State :=
  let (a, c) := s
  match a.toReceive with
  | [] => throw "nothing to receive"
  | chunk :: rest => do
      let (buf, chunk) ← chunk.releaseDataBuffer
      let (f, c) := c.recv (pred nranks rank) rank stamp buf
      pure ({ a with toReceive := rest, receivePosted := a.receivePosted ++ [(chunk, f)] }, c)

/-- The loop over `to_receive_`, up to the first chunk that is not ready. -/
def postReceives (allocated : Nat → Bool) (s : State) : Except String State :=
  (List.range (readyFront allocated s.1.toReceive)).foldlM
    (fun s _ => postReceive nranks rank stamp s) s

/-- A receive is reported complete by `test_some`. -/
def completeReceive (s : State) (k : Nat) : Except String State :=
  let (a, c) := s
  match a.receivePosted[k]? with
  | none => throw "no such receive"
  | some (chunk, f) => do
      let buf ← c.releaseData rank f
      let chunk ← chunk.attachDataBuffer buf
      let a := { a with receivePosted := a.receivePosted.eraseIdx k }
      if chunk.origin = succ nranks rank then
        pure ({ a with forExtraction := a.forExtraction ++ [chunk] }, c)
      else pure ({ a with inserted := a.inserted ++ [chunk] }, c)

/-- A send is reported complete by `test_some`. -/
def completeSend (s : State) (k : Nat) : Except String State :=
  let (a, c) := s
  match a.sentPosted[k]? with
  | none => throw "no such send"
  | some (chunk, buf) => do
      let chunk ← chunk.attachDataBuffer buf
      pure ({ a with
        sentPosted := a.sentPosted.eraseIdx k
        forExtraction := a.forExtraction ++ [chunk] }, c)

/-- The branch for a single rank. -/
def deliverLocally (a : Members) : Members :=
  a.inserted.foldl (fun a chunk =>
    if chunk.isFinish then markFinish chunk.sequence a
    else { a with forExtraction := a.forExtraction ++ [chunk] }) { a with inserted := [] }

/-- The branch for several ranks. -/
def communicate (env : Env) (s : State) : Except String State := do
  let s ← sendReady nranks rank stamp env.written s
  let s := receiveMetadata nranks rank stamp env.memType env.arrived s
  let s ← postReceives nranks rank stamp env.allocated s
  let s ← env.received.foldlM (completeReceive nranks rank) s
  let (a, c) ← env.sent.foldlM completeSend s
  pure ({ a with fireAndForget := a.fireAndForget - env.sendsCompleted }, c)

/-- `is_done`. -/
def isDone (a : Members) : Bool :=
  decide (a.finishCounter = 0) && decide (a.extractionGoalpost = a.forExtraction.length)
    && (decide (a.fireAndForget = 0) && a.sentPosted.isEmpty && a.receivePosted.isEmpty
      && a.toReceive.isEmpty && a.inserted.isEmpty)

/-- `event_loop`. It returned `Done` if the data can be extracted afterwards. -/
def eventLoop (env : Env) (s : State) : Except String State := do
  let (a, c) ←
    if nranks = 1 then pure (deliverLocally s.1, s.2) else communicate nranks rank stamp env s
  pure ({ a with canExtract := isDone a }, c)

end EventLoop

/-! ## All ranks -/

/-- An insertion: the sequence number, the metadata and the payload. -/
structure Insertion where
  sequence : Nat
  metadata : Bytes
  payload : Bytes

/-- All ranks: the members of their current AllGather, its number, the channels, and, as history,
what was inserted in each AllGather on each rank. -/
structure Ranks where
  members : Nat → Members
  number : Nat → Nat
  comm : Comm
  insertions : Nat → Nat → List Insertion

/-- The ranks before any step: each has constructed its first AllGather. -/
def Ranks.initial (nranks : Nat) : Ranks where
  members := fun _ => .make nranks
  number := fun _ => 0
  comm := .empty
  insertions := fun _ _ => []

/-- Store the members of a rank. -/
def Ranks.put (r : Nat) (a : Members) (s : Ranks) : Ranks :=
  { s with members := Function.update s.members r a }

/-- Record an insertion. -/
def Ranks.logInsertion (r : Nat) (x : Insertion) (s : Ranks) : Ranks :=
  { s with insertions := fun e q =>
      if e = s.number r ∧ q = r then s.insertions e q ++ [x] else s.insertions e q }

/-- The steps: the calls of the application and of the progress thread of a rank, and the
construction of its next AllGather. -/
inductive Label where
  | insert (r sequence : Nat) (d : PackedData) (memType : MemoryType)
  | insertFinished (r : Nat)
  | eventLoop (r : Nat) (env : Env)
  | start (r : Nat)

/-- The rank of a step. -/
def Label.rank : Label → Nat
  | insert r _ _ _ | insertFinished r | eventLoop r _ | start r => r

/-- One step. -/
def step (nranks : Nat) : Label → Ranks → Except String Ranks
  | .insert r sequence d memType, s => do
      let a ← insert nranks r sequence d memType (s.members r)
      pure ((s.logInsertion r ⟨sequence, d.metadata, d.data.bytes⟩).put r a)
  | .insertFinished r, s =>
      if (s.members r).locallyFinished then throw "insert_finished is called once"
      else pure (s.put r (insertFinished r (s.members r)))
  | .eventLoop r env, s =>
      if (s.members r).canExtract then throw "not called again after Done"
      else do
        let (a, c) ← eventLoop nranks r (s.number r) env (s.members r, s.comm)
        pure ({ s with comm := c }.put r a)
  | .start r, s =>
      if (s.members r).canExtract then
        pure ({ s with number := Function.update s.number r (s.number r + 1) }.put r (.make nranks))
      else throw "the AllGather is not finished"

/-- The ranks as a transition system. -/
def system (nranks : Nat) : System Ranks Label where
  init := fun s => s = .initial nranks
  step := fun s l s' => l.rank < nranks ∧ step nranks l s = .ok s'

end Rapidsmpf.AllGather
