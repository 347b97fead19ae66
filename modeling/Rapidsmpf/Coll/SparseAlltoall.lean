import Rapidsmpf.Lib.Transition
import Rapidsmpf.Coll.Insertion

/-!
# The SparseAlltoall collective

`coll/sparse_alltoall.cpp`: the calls of the application and the `event_loop` of one rank, and any
number of ranks that run one SparseAlltoall after the other on the same `op_id`, each with its lists
of sources and destinations. A call of `insert` draws its ordinal in one step and puts its chunk
into `outgoing_` in another one, so that calls of several threads interleave; `insert_finished` puts
in one finish message after the other. What `event_loop` finds outside the rank is `Env`.
-/

namespace Rapidsmpf.Coll.SparseAlltoall

open Protocol
open Shuffle (PackedData)

/-! ## One rank -/

/-- `SourceState`. -/
structure SourceState where
  expectedCount : Nat
  receivedCount : Nat
  chunks : List Chunk
  incoming : List Chunk

/-- The state of a source from which nothing has come. -/
def SourceState.new : SourceState := ⟨0, 0, [], []⟩

/-- `SourceState::ready`. -/
def SourceState.ready (st : SourceState) : Bool :=
  decide (0 < st.expectedCount) && decide (st.expectedCount = st.receivedCount)

/-- All members of `SparseAlltoall`. `srcs` are the keys of `source_states_`, in the order of its
iteration; `receive_posted_` and `receive_futures_`, whose orders match, are one list; the futures
in `fire_and_forget_` are counted. -/
structure Endpoint extends Members where
  srcs : List Rank
  canExtract : Bool
  receivePosted : List (Chunk × RecvFuture)
  fireAndForget : Nat
  sourceStates : Rank → SourceState

/-- The constructor, for lists it accepts. -/
def Endpoint.make (srcs dsts : List Rank) : Endpoint :=
  { Members.make dsts with
    srcs := srcs, canExtract := false, receivePosted := [], fireAndForget := 0
    sourceStates := fun _ => .new }

/-- Store the state of a source. -/
def Endpoint.setSource (src : Rank) (st : SourceState) (a : Endpoint) : Endpoint :=
  { a with sourceStates := Function.update a.sourceStates src st }

/-- What a call of `event_loop` finds: whether the latest write of each chunk in `outgoing_` is
done, how many metadata messages of a source have arrived, the memory type for the payload of each,
whether the buffer of each chunk in `incoming` is ready, the receives that are complete, in the
order they are reported and by their position among those still posted, and how many sends are
complete. -/
structure Env where
  written : Nat → Bool
  arrived : Rank → Nat
  memType : Rank → Nat → MemoryType
  allocated : Rank → Nat → Bool
  received : List Nat
  sendsCompleted : Nat

/-- The members of a rank together with the channels. -/
abbrev State := Endpoint × Comm

/-- `insert`, up to the chunk: its ordinal is drawn. -/
def draw (rank : Rank) (dst : Rank) (d : PackedData)
    (converted : Option (Fin addressableMemoryTypes.length)) (a : Endpoint) :
    Except String (Chunk × Endpoint) :=
  if a.locallyFinished then
    throw "SparseAlltoall::insert cannot be called after insert_finished()"
  else if dst ∉ a.dsts then
    throw "SparseAlltoall::insert destination is not a valid destination"
  else do
    let data ← ensureMemoryType addressableMemoryTypes converted (some d.data)
    let ordinal := a.nextOrdinal dst
    pure (.fromPackedData ordinal rank (some dst) { d with data := data },
      { a with nextOrdinal := Function.update a.nextOrdinal dst ((ordinal + 1) % 2 ^ 64) })

/-- `PostBox::insert` into `outgoing_`. -/
def enqueue (chunk : Chunk) (a : Endpoint) : Endpoint :=
  { a with outgoing := a.outgoing ++ [chunk] }

/-- A call of `insert` that no other call interrupts. -/
theorem insert_eq_draw (rank dst : Rank) (d : PackedData)
    (converted : Option (Fin addressableMemoryTypes.length)) (a : Endpoint) :
    insert rank ⟨dst, ⟨some d.metadata, some d.data⟩, converted⟩ a.toMembers =
      match draw rank dst d converted a with
      | .ok (chunk, a') => (pure (), (enqueue chunk a').toMembers)
      | .error e => (.error e, a.toMembers) := by
  simp only [insert, draw]
  split
  · rfl
  · split
    · rfl
    · cases ensureMemoryType addressableMemoryTypes converted (some d.data) with
      | error e => rfl
      | ok data => rfl

section EventLoop

variable (rank stamp : Nat)

/-- The iteration of `send_ready_messages` for a chunk. -/
def sendChunk (s : State) (chunk : Chunk) : Except String State :=
  match chunk.destination with
  | none => throw "invalid destination"
  | some dst =>
      let (a, c) := s
      let c := c.sendMetadata rank dst stamp chunk.serialize
      if 0 < chunk.dataSize then do
        let (buf, _) ← chunk.releaseDataBuffer
        pure ({ a with fireAndForget := a.fireAndForget + 2 }, c.sendPayload rank dst stamp buf)
      else pure ({ a with fireAndForget := a.fireAndForget + 1 }, c)

/-- `send_ready_messages`. -/
def sendReadyMessages (written : Nat → Bool) (s : State) : Except String State :=
  let (ready, rest) := extractReady written s.1.outgoing
  ready.foldlM (sendChunk rank stamp) ({ s.1 with outgoing := rest }, s.2)

/-- A metadata message of a source is received. -/
def receiveMessage (src : Rank) (chunk : Chunk) (st : SourceState) : Except String SourceState :=
  let st := { st with receivedCount := (st.receivedCount + 1) % 2 ^ 64 }
  if chunk.origin ≠ src then
    throw "SparseAlltoall received metadata with unexpected origin"
  else if chunk.isFinish then
    if st.expectedCount ≠ 0 then throw "SparseAlltoall received duplicate finish control"
    else pure { st with expectedCount := chunk.sequence }
  else pure { st with incoming := st.incoming ++ [chunk] }

/-- The loop of `receive_metadata_messages` for a source, when at most `arrived` messages have
arrived. -/
def receiveFrom (src : Rank) (memType : Nat → MemoryType) :
    Nat → SourceState × Comm → Except String (SourceState × Comm)
  | 0, s => pure s
  | arrived + 1, (st, c) =>
      if st.ready then pure (st, c)
      else
        match c.recvFrom src rank stamp with
        | none => pure (st, c)
        | some (msg, c) => do
            let st ← receiveMessage src (.deserialize msg (memType arrived)) st
            receiveFrom src memType arrived (st, c)

/-- `receive_metadata_messages`. -/
def receiveMetadataMessages (memType : Rank → Nat → MemoryType) (arrived : Rank → Nat) (s : State) :
    Except String State :=
  s.1.srcs.foldlM (fun s src => do
    let (st, c) ←
      receiveFrom rank stamp src (memType src) (arrived src) (s.1.sourceStates src, s.2)
    pure (s.1.setSource src st, c)) s

/-- The first chunk of `incoming` is complete without a payload, or its receive is posted. -/
def postReceive (src : Rank) (s : State) : Except String State :=
  let (a, c) := s
  let st := a.sourceStates src
  match st.incoming with
  | [] => throw "nothing to receive"
  | chunk :: rest =>
      if chunk.dataSize = 0 then
        pure (a.setSource src { st with incoming := rest, chunks := st.chunks ++ [chunk] }, c)
      else do
        let (buf, chunk) ← chunk.releaseDataBuffer
        let (f, c) := c.recv src rank stamp buf
        pure ({ a.setSource src { st with incoming := rest } with
          receivePosted := a.receivePosted ++ [(chunk, f)] }, c)

/-- The loop of `receive_data_messages` for a source, up to the first chunk that is not ready. -/
def postReceives (src : Rank) (allocated : Nat → Bool) (s : State) : Except String State :=
  (List.range (AllGather.readyFront allocated (s.1.sourceStates src).incoming)).foldlM
    (fun s _ => postReceive rank stamp src s) s

/-- `receive_data_messages`. -/
def receiveDataMessages (allocated : Rank → Nat → Bool) (s : State) : Except String State :=
  s.1.srcs.foldlM (fun s src => postReceives rank stamp src (allocated src) s) s

/-- The iteration of `complete_data_messages` for a receive that `test_some` reports. -/
def completeReceive (s : State) (k : Nat) : Except String State :=
  let (a, c) := s
  match a.receivePosted[k]? with
  | none => throw "no such receive"
  | some (chunk, f) => do
      let buf ← c.releaseData rank f
      let chunk ← chunk.attachDataBuffer buf
      if chunk.isFinish then throw "SparseAlltoall can only complete non-finish chunks"
      else
        let st := a.sourceStates chunk.origin
        pure ({ a.setSource chunk.origin { st with chunks := st.chunks ++ [chunk] } with
          receivePosted := a.receivePosted.eraseIdx k }, c)

/-- `containers_empty`. -/
def containersEmpty (a : Endpoint) : Bool :=
  a.outgoing.isEmpty && a.receivePosted.isEmpty && decide (a.fireAndForget = 0)
    && a.srcs.all fun src => (a.sourceStates src).incoming.isEmpty

/-- The condition under which `event_loop` returns `Done`. -/
def isDone (a : Endpoint) : Bool :=
  a.locallyFinished && (a.srcs.all fun src => (a.sourceStates src).ready) && containersEmpty a

/-- `event_loop`. It returned `Done` if the data can be extracted afterwards. -/
def eventLoop (env : Env) (s : State) : Except String State := do
  let s ← sendReadyMessages rank stamp env.written s
  let s ← receiveMetadataMessages rank stamp env.memType env.arrived s
  let s ← receiveDataMessages rank stamp env.allocated s
  let (a, c) ← env.received.foldlM (completeReceive rank) s
  let a := { a with fireAndForget := a.fireAndForget - env.sendsCompleted }
  pure ({ a with canExtract := isDone a }, c)

end EventLoop

/-- `Chunk::release`. -/
def release (chunk : Chunk) : Except String PackedData :=
  match chunk.metadata, chunk.data with
  | some metadata, some data => pure ⟨metadata, data⟩
  | _, _ => throw "Can't release Chunk with no metadata or data"

/-- `extract`. -/
def extract (src : Rank) (a : Endpoint) : Except String (List PackedData × Endpoint) :=
  if src ∉ a.srcs then throw "SparseAlltoall::extract provided source is not valid"
  else if ¬ a.canExtract then throw "Extracting before all chunks are ready"
  else do
    let st := a.sourceStates src
    let result ← (st.chunks.mergeSort fun x y => x.sequence ≤ y.sequence).mapM release
    pure (result, a.setSource src { st with chunks := [] })

/-! ## All ranks -/

/-- The sources and the destinations of each rank in each SparseAlltoall, as the constructor accepts
them, and consistent: a rank is a destination of another one if that one is a source of it. -/
structure Peers (n : Nat) where
  srcs : Nat → Rank → List Rank
  dsts : Nat → Rank → List Rank
  srcs_valid : ∀ e, ∀ r < n, (srcs e r).Nodup ∧ ∀ q ∈ srcs e r, q < n ∧ q ≠ r
  dsts_valid : ∀ e, ∀ r < n, (dsts e r).Nodup ∧ ∀ q ∈ dsts e r, q < n ∧ q ≠ r
  consistent : ∀ e, ∀ q < n, ∀ r < n, r ∈ dsts e q ↔ q ∈ srcs e r

/-- What the application of a rank is at: calls of `insert` that have drawn their ordinals and not
put in their chunks yet, `insert_finished` with the destinations that are left, or none of these. -/
inductive Calls where
  | inserting (chunks : List Chunk)
  | finishing (dsts : List Rank)
  | returned

/-- An insertion: the metadata and the payload. -/
structure Insertion where
  metadata : Bytes
  payload : Bytes

/-- All ranks: the members of their current SparseAlltoall, its number, the calls of the
application, the channels, and, as history, what was inserted in each SparseAlltoall on each rank
for each destination, in the order of the ordinals, and which finish messages were put in. -/
structure Ranks where
  members : Rank → Endpoint
  number : Rank → Nat
  calls : Rank → Calls
  comm : Comm
  insertions : Nat → Rank → Rank → List Insertion
  finished : Nat → Rank → List Rank

variable {n : Nat}

/-- The ranks before any step: each has constructed its first SparseAlltoall. -/
def Ranks.initial (peers : Peers n) : Ranks where
  members := fun r => .make (peers.srcs 0 r) (peers.dsts 0 r)
  number := fun _ => 0
  calls := fun _ => .inserting []
  comm := .empty
  insertions := fun _ _ _ => []
  finished := fun _ _ => []

/-- Store the members of a rank and what its application is at. -/
def Ranks.put (r : Rank) (a : Endpoint) (calls : Calls) (s : Ranks) : Ranks :=
  { s with members := Function.update s.members r a, calls := Function.update s.calls r calls }

/-- Record an insertion. -/
def Ranks.logInsertion (r dst : Rank) (x : Insertion) (s : Ranks) : Ranks :=
  { s with insertions := fun e q d =>
      if e = s.number r ∧ q = r ∧ d = dst then s.insertions e q d ++ [x]
      else s.insertions e q d }

/-- Record a finish message. -/
def Ranks.logFinish (r dst : Rank) (s : Ranks) : Ranks :=
  { s with finished := fun e q =>
      if e = s.number r ∧ q = r then s.finished e q ++ [dst] else s.finished e q }

/-- The steps: a call of `insert` draws its ordinal, the chunk of one is put in, `insert_finished`
is called, puts in a finish message and returns, `event_loop` is called by the progress thread, and
the next SparseAlltoall is constructed. -/
inductive Label where
  | insert (r dst : Rank) (d : PackedData)
      (converted : Option (Fin addressableMemoryTypes.length))
  | enqueue (r : Rank) (k : Nat)
  | insertFinished (r : Rank)
  | finishNext (r : Rank)
  | finishEnd (r : Rank)
  | eventLoop (r : Rank) (env : Env)
  | start (r : Rank)

/-- The rank of a step. -/
def Label.rank : Label → Rank
  | insert r _ _ _ | enqueue r _ | insertFinished r | finishNext r | finishEnd r | eventLoop r _
  | start r => r

/-- One step. The application calls `insert_finished` when all calls of `insert` have completed. -/
def step (peers : Peers n) : Label → Ranks → Except String Ranks
  | .insert r dst d converted, s =>
      match s.calls r with
      | .inserting chunks => do
          let (chunk, a) ← draw r dst d converted (s.members r)
          pure ((s.logInsertion r dst ⟨d.metadata, d.data.bytes⟩).put r a
            (.inserting (chunks ++ [chunk])))
      | _ => throw "insert_finished was called"
  | .enqueue r k, s =>
      match s.calls r with
      | .inserting chunks =>
          match chunks[k]? with
          | some chunk =>
              pure (s.put r (enqueue chunk (s.members r)) (.inserting (chunks.eraseIdx k)))
          | none => throw "no such call"
      | _ => throw "no such call"
  | .insertFinished r, s =>
      match s.calls r with
      | .inserting [] =>
          if (s.members r).locallyFinished then
            throw "SparseAlltoall::insert_finished can only be called once"
          else pure (s.put r (s.members r) (.finishing (s.members r).dsts))
      | _ => throw "calls of insert have not completed"
  | .finishNext r, s =>
      match s.calls r with
      | .finishing (dst :: dsts) =>
          pure ((s.logFinish r dst).put r
            (enqueue (finishChunk r (s.members r).toMembers dst) (s.members r)) (.finishing dsts))
      | _ => throw "no finish message is left"
  | .finishEnd r, s =>
      match s.calls r with
      | .finishing [] => pure (s.put r { s.members r with locallyFinished := true } .returned)
      | _ => throw "finish messages are left"
  | .eventLoop r env, s =>
      if (s.members r).canExtract then throw "not called again after Done"
      else do
        let (a, c) ← eventLoop r (s.number r) env (s.members r, s.comm)
        pure ({ s with comm := c }.put r a (s.calls r))
  | .start r, s =>
      if (s.members r).canExtract then
        let e := s.number r + 1
        pure ({ s with number := Function.update s.number r e }.put r
          (.make (peers.srcs e r) (peers.dsts e r)) (.inserting []))
      else throw "the SparseAlltoall is not finished"

/-- The ranks as a transition system. -/
def system (peers : Peers n) : System Ranks Label where
  init := fun s => s = .initial peers
  step := fun s l s' => l.rank < n ∧ step peers l s = .ok s'

end Rapidsmpf.Coll.SparseAlltoall
