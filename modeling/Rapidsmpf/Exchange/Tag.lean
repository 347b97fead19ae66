import Rapidsmpf.Lib.Channel
import Rapidsmpf.Lib.LittleEndian
import Rapidsmpf.Lib.Fallible
import Rapidsmpf.Memory.Buffer

/-!
# The tag-based metadata payload exchange

`communicator/metadata_payload_exchange/tag.cpp`, function by function. A message travels as one
metadata message (its metadata followed by the message id and the payload size) and, when it has
a payload, one message on the data tag. A receiver reads the metadata of each peer with
`recv_from`, allocates receive buffers, posts the payload receives in message order, and hands
messages over in message order. `finish` sends every peer a termination marker with the number of
application messages sent to it.

What the surroundings decide in one `progress` call (which messages have arrived, which
allocations succeed, which buffers are ready, which receives are reported complete, the order in
which the hash maps are walked, the clock) is collected in `Env`. A fatal error of the source is
an `Except` error with its text.
-/

namespace Rapidsmpf.Exchange

open Protocol LittleEndian

/-- `MetadataPayloadExchange::Message`. -/
structure Message where
  peerRank : Rank
  metadata : Bytes
  data : Option Buffer
deriving DecidableEq

/-- What the application sees of a message: its metadata and its payload bytes, a missing payload
and an empty one being the same. -/
def Message.content (m : Message) : Bytes × Bytes :=
  (m.metadata, (m.data.map Buffer.bytes).getD [])

/-- `payload_size` of an outgoing message. -/
def Message.payloadSize (m : Message) : Nat :=
  (m.data.map Buffer.size).getD 0

/-- `MetadataPayloadExchange::AllocationMode`. -/
inductive AllocationMode where
  | mayFail
  | mustSucceed
deriving DecidableEq

/-- The places of `progress` that ask for a receive buffer. -/
inductive AllocationPoint where
  | receiveMetadata
  | forceProgress
  | setupDataReceives
deriving DecidableEq

/-- `TagMetadataPayloadExchange::TagMessage`. -/
structure TagMessage where
  message : Message
  messageId : Nat
  expectedPayloadSize : Nat
  arrival : Nat
  forcedAllocation : Bool
deriving DecidableEq

/-- `TagMessage::is_awaiting_buffer`. -/
def TagMessage.isAwaitingBuffer (m : TagMessage) : Bool :=
  decide (0 < m.expectedPayloadSize) && m.message.data.isNone

/-- A posted payload receive: the position of the matched message on the data channel from `src`,
and the buffer to fill. -/
structure Future where
  src : Rank
  position : Nat
  buffer : Buffer
deriving DecidableEq

/-- The channels of one `op_id`, from a source to a destination: `metadata_tag_` and
`gpu_data_tag_`. The stamps number the instances that share the `op_id`. -/
structure Comm where
  metadata : Rank × Rank → Channel Nat Bytes
  gpuData : Rank × Rank → Channel Nat Buffer

/-- The fixed data of one instance: the communicator's size and rank, the allocation timeout, and
the number of the instance among those on this `op_id`, which no function reads except to stamp
what it sends and receives. -/
structure Instance where
  nranks : Nat
  rank : Rank
  allocationTimeout : Nat
  stamp : Nat

/-- The members of `TagMetadataPayloadExchange`. A peer without an entry in one of the two message
maps has an empty list here; the source removes an entry as soon as it is empty. -/
structure TagExchange where
  numAwaitingBuffer : Rank → Nat
  totalAwaitingBuffer : Nat
  allocationStallStart : Option Nat
  nextArrival : Nat
  finished : Bool
  messagesSentTo : Rank → Nat
  peerReceived : Rank → Nat
  peerExpected : Rank → Nat
  peerTerminated : Rank → Bool
  fireAndForget : Nat
  incomingMessages : Rank → List TagMessage
  inTransitMessages : Rank → List TagMessage
  inTransitFutures : List (Nat × Future)
  receivedMessages : List Message
  nextMessageId : Nat

/-- The members after construction. -/
def TagExchange.initial : TagExchange where
  numAwaitingBuffer := fun _ => 0
  totalAwaitingBuffer := 0
  allocationStallStart := none
  nextArrival := 0
  finished := false
  messagesSentTo := fun _ => 0
  peerReceived := fun _ => 0
  peerExpected := fun _ => 0
  peerTerminated := fun _ => false
  fireAndForget := 0
  incomingMessages := fun _ => []
  inTransitMessages := fun _ => []
  inTransitFutures := []
  receivedMessages := []
  nextMessageId := 0

/-- What the surroundings decide during one `progress` call of an exchange among `nranks` ranks.
`alloc` and `writeDone` are asked about the message with the given arrival number. -/
structure Env (nranks : Nat) where
  arrived : Rank → Nat
  alloc : AllocationPoint → AllocationMode → Nat → Option Buffer
  writeDone : Nat → Bool
  now : Nat
  incomingOrder : List Rank
  reported : List Nat
  transitOrder : List Rank
  movedToDisk : Nat → Bool
  sendsCompleted : Nat
  incoming_perm : incomingOrder.Perm (List.range nranks)
  transit_perm : transitOrder.Perm (List.range nranks)

theorem zero_one_perm : [0, 1].Perm (List.range 2) := .refl _

/-- An exchange together with the channels it works on. -/
abbrev State := TagExchange × Comm

/-! ## Sending -/

/-- `termination_sentinel_`. -/
def terminationSentinel : Nat := 2 ^ 64 - 1

/-- `[rank (32 bits)][sequence (32 bits)]`, computed in 64 bits. -/
def messageId (rank next : Nat) : Nat :=
  (rank <<< 32 ||| next) % 2 ^ 64

/-- `[original_metadata][message_id][payload_size]`. -/
def combinedMetadata (metadata : Bytes) (messageId payloadSize : Nat) : Bytes :=
  metadata ++ toBytes 8 messageId ++ toBytes 8 payloadSize

/-- Change one metadata channel. -/
def Comm.onMetadata (k : Rank × Rank) (f : Channel Nat Bytes → Channel Nat Bytes) (c : Comm) :
    Comm :=
  { c with metadata := Function.update c.metadata k (f (c.metadata k)) }

/-- Change one data channel. -/
def Comm.onGpuData (k : Rank × Rank) (f : Channel Nat Buffer → Channel Nat Buffer) (c : Comm) :
    Comm :=
  { c with gpuData := Function.update c.gpuData k (f (c.gpuData k)) }

/-- `comm_->send(msg, dst, metadata_tag_)`. -/
def Comm.sendMetadata (i : Instance) (dst : Rank) (msg : Bytes) : Comm → Comm :=
  Comm.onMetadata (i.rank, dst) (Channel.send i.stamp msg)

/-- `comm_->send(data, dst, gpu_data_tag_)`. -/
def Comm.sendData (i : Instance) (dst : Rank) (data : Buffer) : Comm → Comm :=
  Comm.onGpuData (i.rank, dst) (Channel.send i.stamp data)

/-- One iteration of the sending loop of `send`. -/
def sendOne (i : Instance) (s : State) (message : Message) : Except String State := do
  let (st, comm) := s
  let dst := message.peerRank
  let id := messageId i.rank st.nextMessageId
  if dst = i.rank then throw "sending message to ourselves"
  let comm := comm.sendMetadata i dst (combinedMetadata message.metadata id message.payloadSize)
  let st := { st with
    messagesSentTo := Function.update st.messagesSentTo dst (st.messagesSentTo dst + 1)
    nextMessageId := (st.nextMessageId + 1) % 2 ^ 64
    fireAndForget := st.fireAndForget + 1 }
  match message.data with
  | some data =>
      if 0 < data.size then
        pure ({ st with fireAndForget := st.fireAndForget + 1 }, comm.sendData i dst data)
      else pure (st, comm)
  | none => pure (st, comm)

/-- The check of `send` that a payload can be sent from its memory type. -/
def sendable (message : Message) : Bool :=
  message.data.all fun data => addressableMemoryTypes.contains data.memType

/-- `TagMetadataPayloadExchange::send`. -/
def send (i : Instance) (messages : List Message) (s : State) : Except String State := do
  if s.1.finished then throw "send() called after finish()"
  if ¬ messages.all sendable then
    throw "the payload's memory type is not sendable to its destination"
  messages.foldlM (sendOne i) s

/-- The termination marker: `[sentinel][message_count]`. -/
def terminationMarker (count : Nat) : Bytes :=
  toBytes 8 terminationSentinel ++ toBytes 8 count

/-- One iteration of the loop of `finish`. -/
def finishPeer (i : Instance) (s : State) (peer : Rank) : State :=
  if peer = i.rank then s
  else
    ({ s.1 with fireAndForget := s.1.fireAndForget + 1 },
      s.2.sendMetadata i peer (terminationMarker (s.1.messagesSentTo peer)))

/-- `TagMetadataPayloadExchange::finish`. -/
def finish (i : Instance) (s : State) : Except String State := do
  if s.1.finished then throw "finish() called more than once"
  pure ((List.range i.nranks).foldl (finishPeer i) ({ s.1 with finished := true }, s.2))

/-! ## Receive buffers -/

variable {n : Nat}

/-- `try_attach_receive_buffer`: the message with its buffer, or `none` when the allocation
failed although it was allowed to. -/
def tryAttachReceiveBuffer (env : Env n) (point : AllocationPoint) (mode : AllocationMode)
    (m : TagMessage) (st : TagExchange) : Except String (Option (TagMessage × TagExchange)) :=
  if ¬ m.isAwaitingBuffer then throw "message is not waiting for a buffer"
  else
    match env.alloc point mode m.arrival with
    | none =>
        if mode = .mayFail then pure none
        else throw "receive buffer allocator returned nullptr although it must succeed"
    | some buffer =>
        let p := m.message.peerRank
        let total := st.totalAwaitingBuffer - 1
        pure (some
          ({ m with message := { m.message with data := some buffer } },
            { st with
              numAwaitingBuffer :=
                Function.update st.numAwaitingBuffer p (st.numAwaitingBuffer p - 1)
              totalAwaitingBuffer := total
              allocationStallStart := if 0 < total then some env.now else none }))

/-- Replace the first waiting message of a list. -/
def replaceWaiting (m' : TagMessage) : List TagMessage → List TagMessage
  | [] => []
  | m :: ms => if m.isAwaitingBuffer then m' :: ms else m :: replaceWaiting m' ms

/-- The oldest of two waiting messages, by local arrival. -/
def older (a : Option TagMessage) (b : Option TagMessage) : Option TagMessage :=
  match a, b with
  | none, b => b
  | some a, none => some a
  | some a, some b => if b.arrival < a.arrival then some b else some a

/-- The oldest message waiting for a buffer: per peer the first waiting one, and of these the one
that arrived first. -/
def oldestWaiting (i : Instance) (st : TagExchange) : Option TagMessage :=
  (List.range i.nranks).foldl
    (fun oldest q => older oldest ((st.incomingMessages q).find? TagMessage.isAwaitingBuffer)) none

/-- Store a message back in place of the first waiting message of its peer. -/
def storeWaiting (m : TagMessage) (st : TagExchange) : TagExchange :=
  let p := m.message.peerRank
  { st with incomingMessages :=
      Function.update st.incomingMessages p (replaceWaiting m (st.incomingMessages p)) }

/-- Whether the stall timer is running and has expired. -/
def stalled (i : Instance) (env : Env n) (st : TagExchange) : Bool :=
  match st.allocationStallStart with
  | none => false
  | some start => decide (i.allocationTimeout ≤ env.now - start)

/-- `force_allocation_progress_if_stalled`. -/
def forceAllocationProgressIfStalled (i : Instance) (env : Env n) (st : TagExchange) :
    Except String TagExchange := do
  if ¬ stalled i env st then return st
  match oldestWaiting i st with
  | none => throw "no message is waiting for a buffer"
  | some oldest =>
      match ← tryAttachReceiveBuffer env .forceProgress .mayFail oldest st with
      | some (m, st) => pure (storeWaiting m st)
      | none =>
          match ← tryAttachReceiveBuffer env .forceProgress .mustSucceed oldest st with
          | some (m, st) => pure (storeWaiting { m with forcedAllocation := true } st)
          | none => pure st

/-! ## Progress -/

/-- The protocol trailer of a metadata message, and the original metadata before it. -/
structure Trailer where
  originalMetadata : Bytes
  messageId : Nat
  payloadSize : Nat

/-- Split a received metadata message. -/
def parseMetadata (msg : Bytes) : Except String Trailer :=
  if msg.length < 16 then throw "Truncated metadata"
  else
    let originalSize := msg.length - 16
    pure ⟨msg.take originalSize, ofBytes ((msg.drop originalSize).take 8),
      ofBytes ((msg.drop (originalSize + 8)).take 8)⟩

/-- `comm_->recv_from(peer, metadata_tag_)` for a message that has arrived. -/
def Comm.recvFrom (i : Instance) (peer : Rank) (c : Comm) : Option (Bytes × Comm) :=
  (c.metadata (peer, i.rank)).next?.map fun x =>
    (x.2, c.onMetadata (peer, i.rank) (Channel.post i.stamp))

/-- The bookkeeping of `receive_metadata` for a new message with a payload: count it as waiting,
try to allocate its buffer if no earlier message of the peer waits, and start the stall timer. -/
def awaitBuffer (env : Env n) (m : TagMessage) (st : TagExchange) :
    Except String (TagMessage × TagExchange) := do
  let p := m.message.peerRank
  let st := { st with
    numAwaitingBuffer := Function.update st.numAwaitingBuffer p (st.numAwaitingBuffer p + 1)
    totalAwaitingBuffer := st.totalAwaitingBuffer + 1 }
  let (m, st) ←
    (if st.numAwaitingBuffer p = 1 then
      (fun r => r.getD (m, st)) <$> tryAttachReceiveBuffer env .receiveMetadata .mayFail m st
    else pure (m, st))
  if m.isAwaitingBuffer ∧ st.allocationStallStart.isNone then
    pure (m, { st with allocationStallStart := some env.now })
  else pure (m, st)

/-- The receiver's record of a new application message. -/
def newTagMessage (peer : Rank) (t : Trailer) (arrival : Nat) : TagMessage :=
  ⟨⟨peer, t.originalMetadata, none⟩, t.messageId, t.payloadSize, arrival, false⟩

/-- `peer_received_[p]++` and `next_arrival_++`. -/
def TagExchange.countReceived (peer : Rank) (st : TagExchange) : TagExchange :=
  { st with
    peerReceived := Function.update st.peerReceived peer (st.peerReceived peer + 1)
    nextArrival := st.nextArrival + 1 }

/-- `incoming_messages_[peer].emplace_back(m)`. -/
def TagExchange.enqueue (peer : Rank) (m : TagMessage) (st : TagExchange) : TagExchange :=
  { st with
    incomingMessages :=
      Function.update st.incomingMessages peer (st.incomingMessages peer ++ [m]) }

/-- The termination marker of a peer with its count. -/
def TagExchange.terminate (peer : Rank) (count : Nat) (st : TagExchange) : TagExchange :=
  { st with
    peerExpected := Function.update st.peerExpected peer count
    peerTerminated := Function.update st.peerTerminated peer true }

/-- The `while (true)` loop of `receive_metadata` for one peer, of whose messages `arrived` can be
received now. -/
def receiveFrom (i : Instance) (env : Env n) (peer : Rank) : Nat → State → Except String State
  | 0, s => pure s
  | arrived + 1, (st, comm) =>
      match comm.recvFrom i peer with
      | none => pure (st, comm)
      | some (msg, comm) => do
          let t ← parseMetadata msg
          if t.messageId = terminationSentinel then
            -- `payload_size` carries the count
            pure (st.terminate peer t.payloadSize, comm)
          else
            let m := newTagMessage peer t st.nextArrival
            let st := st.countReceived peer
            let (m, st) ← (if 0 < t.payloadSize then awaitBuffer env m st else pure (m, st))
            receiveFrom i env peer arrived (st.enqueue peer m, comm)

/-- Whether everything a peer announced was received. -/
def peerDone (st : TagExchange) (peer : Rank) : Bool :=
  st.peerTerminated peer && decide (st.peerExpected peer ≤ st.peerReceived peer)

/-- `receive_metadata`. -/
def receiveMetadata (i : Instance) (env : Env n) (s : State) : Except String State :=
  (List.range i.nranks).foldlM (fun s peer =>
    if peer = i.rank ∨ peerDone s.1 peer then pure s
    else receiveFrom i env peer (env.arrived peer) s) s

/-- `comm_->recv(src, gpu_data_tag_, buffer)`. -/
def Comm.postRecv (i : Instance) (src : Rank) (buffer : Buffer) (c : Comm) : Future × Comm :=
  (⟨src, (c.gpuData (src, i.rank)).matched, buffer⟩,
    c.onGpuData (src, i.rank) (Channel.post i.stamp))

/-- Post the payload receive of a message whose buffer is ready and move the message to the
in-transit messages of its source. -/
def postReceive (i : Instance) (src : Rank) (m : TagMessage) (s : State) :
    Except String State :=
  match m.message.data with
  | none => throw "recv buffer cannot be null"
  | some buffer =>
      let (future, comm) := s.2.postRecv i src buffer
      if (s.1.inTransitFutures.lookup m.messageId).isSome then
        throw "in transit future already exists"
      else
        let m := { m with message := { m.message with data := none } }
        pure ({ s.1 with
          inTransitFutures := s.1.inTransitFutures ++ [(m.messageId, future)]
          inTransitMessages :=
            Function.update s.1.inTransitMessages src (s.1.inTransitMessages src ++ [m]) }, comm)

/-- The `while` loop of `setup_data_receives` over the messages of one source: the completed
metadata-only messages, the messages left, and the exchange. -/
def setupRank (i : Instance) (env : Env n) (src : Rank) :
    List TagMessage → State → Except String (List Message × List TagMessage × State)
  | [], s => pure ([], [], s)
  | m :: rest, s =>
      if 0 < m.expectedPayloadSize then do
        let attached ←
          (if m.isAwaitingBuffer then
            tryAttachReceiveBuffer env .setupDataReceives .mayFail m s.1
          else pure (some (m, s.1)))
        match attached with
        | none => pure ([], m :: rest, s)
        | some (m, st) =>
            if ¬ env.writeDone m.arrival then pure ([], m :: rest, (st, s.2))
            else do
              -- after posting one receive the loop stops for this source
              let s ← postReceive i src m (st, s.2)
              pure ([], rest, s)
      else if (s.1.inTransitMessages src).isEmpty then do
        let (completed, left, s) ← setupRank i env src rest s
        pure (m.message :: completed, left, s)
      else pure ([], m :: rest, s)

/-- One iteration of the outer loop of `setup_data_receives`. -/
def setupSource (i : Instance) (env : Env n) (acc : List Message × State) (src : Rank) :
    Except String (List Message × State) := do
  let (completed, left, st, comm) ←
    setupRank i env src (acc.2.1.incomingMessages src) acc.2
  pure (acc.1 ++ completed,
    { st with incomingMessages := Function.update st.incomingMessages src left }, comm)

/-- `setup_data_receives`. -/
def setupDataReceives (i : Instance) (env : Env n) (s : State) :
    Except String (List Message × State) := do
  let st ← forceAllocationProgressIfStalled i env s.1
  env.incomingOrder.foldlM (setupSource i env) ([], (st, s.2))

/-- `comm_->release_data(future)`: the buffer filled with the matched message. -/
def Comm.releaseData (i : Instance) (c : Comm) (f : Future) : Except String Buffer :=
  match (c.gpuData (f.src, i.rank)).content? f.position with
  | none => throw "future has no data"
  | some payload => pure (f.buffer.fill payload)

/-- `try_move_to_disk`: the payload keeps its bytes. -/
def tryMoveToDisk (env : Env n) (m : TagMessage) (b : Buffer) : Buffer :=
  if m.forcedAllocation && env.movedToDisk m.arrival then { b with memType := .disk } else b

/-- The `while` loop of `complete_data_transfers` over the in-transit messages of one source. -/
def completeRank (i : Instance) (env : Env n) (comm : Comm) :
    List TagMessage → List (Nat × Future) →
      Except String (List Message × List TagMessage × List (Nat × Future))
  | [], futures => pure ([], [], futures)
  | m :: rest, futures =>
      if env.reported.contains m.messageId then
        match futures.lookup m.messageId with
        | none => throw "in transit future not found"
        | some future => do
            let buffer ← comm.releaseData i future
            let (completed, left, futures) ←
              completeRank i env comm rest (futures.filter fun f => f.1 ≠ m.messageId)
            pure ({ m.message with data := some (tryMoveToDisk env m buffer) } :: completed,
              left, futures)
      else pure ([], m :: rest, futures)

/-- One iteration of the outer loop of `complete_data_transfers`. -/
def completeSource (i : Instance) (env : Env n) (comm : Comm)
    (acc : List Message × TagExchange) (src : Rank) :
    Except String (List Message × TagExchange) := do
  let (completed, left, futures) ←
    completeRank i env comm (acc.2.inTransitMessages src) acc.2.inTransitFutures
  pure (acc.1 ++ completed,
    { acc.2 with
      inTransitMessages := Function.update acc.2.inTransitMessages src left
      inTransitFutures := futures })

/-- `complete_data_transfers`. -/
def completeDataTransfers (i : Instance) (env : Env n) (s : State) :
    Except String (List Message × TagExchange) :=
  if s.1.inTransitFutures.isEmpty then pure ([], s.1)
  else env.transitOrder.foldlM (completeSource i env s.2) ([], s.1)

/-- `cleanup_completed_operations`. -/
def cleanupCompletedOperations (env : Env n) (st : TagExchange) : TagExchange :=
  { st with fireAndForget := st.fireAndForget - env.sendsCompleted }

/-- `TagMetadataPayloadExchange::progress`. -/
def progress (i : Instance) (env : Env n) (s : State) : Except String State := do
  let s ← receiveMetadata i env s
  let (completedMetadataOnly, s) ← setupDataReceives i env s
  let (completedData, st) ← completeDataTransfers i env s
  let st := { st with
    receivedMessages := st.receivedMessages ++ completedMetadataOnly ++ completedData }
  pure (cleanupCompletedOperations env st, s.2)

/-- `TagMetadataPayloadExchange::recv`. -/
def recv (st : TagExchange) : List Message × TagExchange :=
  (st.receivedMessages, { st with receivedMessages := [] })

/-- `TagMetadataPayloadExchange::is_idle`. -/
def isIdle (i : Instance) (st : TagExchange) : Bool :=
  let ioIdle := st.fireAndForget == 0
    && (List.range i.nranks).all (fun q => (st.incomingMessages q).isEmpty)
    && (List.range i.nranks).all (fun q => (st.inTransitMessages q).isEmpty)
    && st.inTransitFutures.isEmpty
  if ¬ st.finished then ioIdle
  else
    (List.range i.nranks).all (fun peer => peer == i.rank || peerDone st peer) && ioIdle

end Rapidsmpf.Exchange
