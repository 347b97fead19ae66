import Rapidsmpf.Lib.Channel
import Rapidsmpf.Lib.Transition
import Rapidsmpf.Memory.Buffer

/-!
# The AllReduce collective

`coll/allreduce.cpp`: the state machine of `event_loop`, and any number of ranks that run one
AllReduce after the other on the same `op_id` over channels without message overtaking. Buffers
hold values of any type and the reduce operator is any function. A buffer that was moved into a
future is absent until `release_data` brings it back; reading an absent buffer is an error.

Every send and every receive is stamped with the number of the AllReduce and its stage. No
function reads a stamp.
-/

namespace Rapidsmpf.AllReduce

open Protocol

variable {α : Type}

/-! ## One rank -/

/-- `AllReduce::Phase`. -/
inductive Phase where
  | startPreRemainder
  | completePreRemainder
  | startButterfly
  | completeButterfly
  | startPostRemainder
  | completePostRemainder
  | done
  | resultAvailable
deriving DecidableEq

/-- The exchanges of one AllReduce. -/
inductive Stage where
  | preRemainder
  | butterfly (mask : Nat)
  | postRemainder
deriving DecidableEq

/-- A buffer: its value, and whether its latest write is done. -/
structure Buf (α : Type) where
  value : α
  writeDone : Bool

/-- A posted send, the position of its message on the channel, and the buffer it owns. -/
structure SendFuture (α : Type) where
  dst : Nat
  position : Nat
  buffer : Buf α
  complete : Bool

/-- A posted receive, the position of the message it is matched with, and the buffer it owns. -/
structure RecvFuture (α : Type) where
  src : Nat
  position : Nat
  buffer : Buf α
  complete : Bool

/-- The channels of the one tag, from a source to a destination. -/
abbrev Comm (α : Type) := Nat × Nat → Channel (Nat × Stage) α

/-- The members of `AllReduce`; a logical rank of `-1` is absent. -/
structure Members (α : Type) where
  inBuffer : Option (Buf α)
  outBuffer : Option (Buf α)
  phase : Phase
  logicalRank : Option Nat
  stageMask : Nat
  stagePartner : Option Nat
  sendFuture : Option (SendFuture α)
  recvFuture : Option (RecvFuture α)

/-- `nearest_pow2_`. -/
def nearestPow2 (nranks : Nat) : Nat := 2 ^ Nat.log2 nranks

/-- `non_pow2_remainder_`. -/
def nonPow2Remainder (nranks : Nat) : Nat := nranks - nearestPow2 nranks

/-- `logical_rank_` of a rank. -/
def logicalRankOf (nranks rank : Nat) : Option Nat :=
  if rank < 2 * nonPow2Remainder nranks then
    if rank % 2 = 0 then none else some (rank / 2)
  else some (rank - nonPow2Remainder nranks)

/-- The rank with a logical rank. -/
def physicalRank (nranks logical : Nat) : Nat :=
  if logical < nonPow2Remainder nranks then logical * 2 + 1
  else logical + nonPow2Remainder nranks

/-- The constructor. The copy of the input into the output need not be done. -/
def Members.make (nranks rank : Nat) (input : α) : Members α where
  inBuffer := some ⟨input, false⟩
  outBuffer := some ⟨input, false⟩
  phase :=
    if rank < 2 * nonPow2Remainder nranks then .startPreRemainder else .startButterfly
  logicalRank := logicalRankOf nranks rank
  stageMask := 1
  stagePartner := none
  sendFuture := none
  recvFuture := none

/-- Read a member that holds a pointer. -/
def deref {β : Type} : Option β → Except String β
  | some b => pure b
  | none => throw "null pointer"

/-- `comm_->send`. -/
def Comm.send (rank dst : Nat) (stamp : Nat × Stage) (b : Buf α) (c : Comm α) :
    Except String (SendFuture α × Comm α) :=
  let channel := c (rank, dst)
  if ¬ b.writeDone then throw "msg must be ready"
  else
    pure (⟨dst, channel.sent.length, b, false⟩,
      Function.update c (rank, dst) (channel.send stamp b.value))

/-- `comm_->recv`. -/
def Comm.recv (src rank : Nat) (stamp : Nat × Stage) (b : Buf α) (c : Comm α) :
    Except String (RecvFuture α × Comm α) :=
  let channel := c (src, rank)
  if ¬ b.writeDone then throw "msg must be ready"
  else
    pure (⟨src, channel.matched, b, false⟩, Function.update c (src, rank) (channel.post stamp))

/-- `reduce_operator_(left, right)`: overwrites `right`, and the write is not done yet. -/
def reduce (op : α → α → α) (left right : Buf α) : Buf α :=
  ⟨op left.value right.value, false⟩

section EventLoop

variable (nranks rank : Nat) (op : α → α → α) (number : Nat)

/-- `case Phase::StartPreRemainder`. -/
def startPreRemainder (a : Members α) (c : Comm α) : Except String (Members α × Comm α) := do
  let out ← deref a.outBuffer
  if rank % 2 = 0 then
    if ¬ out.writeDone then pure (a, c)
    else
      let (f, c) ← c.send rank (rank + 1) (number, .preRemainder) out
      pure ({ a with
        outBuffer := none, sendFuture := some f, phase := .completePreRemainder }, c)
  else if ¬ out.writeDone then pure (a, c)
  else
    let input ← deref a.inBuffer
    if ¬ input.writeDone then pure (a, c)
    else
      let (f, c) ← c.recv (rank - 1) rank (number, .preRemainder) input
      pure ({ a with
        inBuffer := none, recvFuture := some f, phase := .completePreRemainder }, c)

/-- `case Phase::CompletePreRemainder`. -/
def completePreRemainder (a : Members α) : Except String (Members α) :=
  if rank % 2 = 0 then do
    let f ← deref a.sendFuture
    if ¬ f.complete then pure a
    else
      pure { a with
        outBuffer := some f.buffer, sendFuture := none, phase := .startPostRemainder }
  else do
    let f ← deref a.recvFuture
    if ¬ f.complete then pure a
    else
      let out ← deref a.outBuffer
      pure { a with
        inBuffer := some f.buffer
        outBuffer := some (reduce op f.buffer out)
        recvFuture := none
        phase := .startButterfly }

/-- `case Phase::StartButterfly`. -/
def startButterfly (a : Members α) (c : Comm α) : Except String (Members α × Comm α) :=
  if nearestPow2 nranks ≤ a.stageMask then
    if rank < 2 * nonPow2Remainder nranks then pure ({ a with phase := .startPostRemainder }, c)
    else pure ({ a with phase := .done }, c)
  else do
    let logical ← deref a.logicalRank
    let partner := physicalRank nranks (logical ^^^ a.stageMask)
    let a := { a with stagePartner := some partner }
    let out ← deref a.outBuffer
    if ¬ out.writeDone then pure (a, c)
    else
      let input ← deref a.inBuffer
      if ¬ input.writeDone then pure (a, c)
      else
        let (recv, c) ← c.recv partner rank (number, .butterfly a.stageMask) input
        let (send, c) ← c.send rank partner (number, .butterfly a.stageMask) out
        pure ({ a with
          inBuffer := none
          outBuffer := none
          recvFuture := some recv
          sendFuture := some send
          phase := .completeButterfly }, c)

/-- `case Phase::CompleteButterfly`. -/
def completeButterfly (a : Members α) : Except String (Members α) := do
  let recv ← deref a.recvFuture
  if ¬ recv.complete then pure a
  else
    let send ← deref a.sendFuture
    if ¬ send.complete then pure a
    else
      let partner ← deref a.stagePartner
      let a := { a with
        recvFuture := none
        sendFuture := none
        stageMask := a.stageMask <<< 1
        phase := .startButterfly }
      if partner < rank then
        pure { a with
          inBuffer := some recv.buffer
          outBuffer := some (reduce op recv.buffer send.buffer) }
      else
        -- the result is in the input buffer, and the two are swapped
        pure { a with
          inBuffer := some send.buffer
          outBuffer := some (reduce op send.buffer recv.buffer) }

/-- `case Phase::StartPostRemainder`. -/
def startPostRemainder (a : Members α) (c : Comm α) : Except String (Members α × Comm α) := do
  let out ← deref a.outBuffer
  if ¬ out.writeDone then pure (a, c)
  else if rank % 2 = 0 then
    let (f, c) ← c.recv (rank + 1) rank (number, .postRemainder) out
    pure ({ a with
      outBuffer := none, recvFuture := some f, phase := .completePostRemainder }, c)
  else
    let (f, c) ← c.send rank (rank - 1) (number, .postRemainder) out
    pure ({ a with
      outBuffer := none, sendFuture := some f, phase := .completePostRemainder }, c)

/-- `case Phase::CompletePostRemainder`. -/
def completePostRemainder (a : Members α) : Except String (Members α) :=
  if rank % 2 = 0 then do
    let f ← deref a.recvFuture
    if ¬ f.complete then pure a
    else pure { a with outBuffer := some f.buffer, recvFuture := none, phase := .done }
  else do
    let f ← deref a.sendFuture
    if ¬ f.complete then pure a
    else pure { a with outBuffer := some f.buffer, sendFuture := none, phase := .done }

/-- The end of `event_loop`. -/
def publish (a : Members α) : Members α :=
  if a.phase = .done then { a with phase := .resultAvailable } else a

/-- `event_loop`. -/
def eventLoop (a : Members α) (c : Comm α) : Except String (Members α × Comm α) := do
  let (a, c) ←
    match a.phase with
    | .startPreRemainder => startPreRemainder rank number a c
    | .completePreRemainder => do pure (← completePreRemainder rank op a, c)
    | .startButterfly => startButterfly nranks rank number a c
    | .completeButterfly => do pure (← completeButterfly rank op a, c)
    | .startPostRemainder => startPostRemainder rank number a c
    | .completePostRemainder => do pure (← completePostRemainder rank a, c)
    | .resultAvailable => throw "Event loop should never read ResultAvailable"
    | .done => pure (a, c)
  pure (publish a, c)

end EventLoop

/-! ## All ranks -/

/-- All ranks: the members of their current AllReduce, its number, and the channels. -/
structure Ranks (α : Type) where
  members : Nat → Members α
  number : Nat → Nat
  comm : Comm α

/-- The number of ranks, the inputs of all ranks to each AllReduce, and its reduce operator. -/
structure Inputs (α : Type) where
  nranks : Nat
  nranks_pos : 0 < nranks
  input : Nat → Nat → α
  op : Nat → α → α → α

/-- The ranks before any step: each has constructed its first AllReduce. -/
def Ranks.initial (i : Inputs α) : Ranks α where
  members := fun r => .make i.nranks r (i.input 0 r)
  number := fun _ => 0
  comm := fun _ => .empty

/-- Store the members of a rank. -/
def Ranks.put (r : Nat) (a : Members α) (s : Ranks α) : Ranks α :=
  { s with members := Function.update s.members r a }

/-- The steps: a call of `event_loop`, the completion of a send, the delivery of a message, a write
to one of the buffers being done, and the construction of the next AllReduce. -/
inductive Label where
  | eventLoop (r : Nat)
  | completeSend (r : Nat)
  | deliver (r : Nat)
  | writeInDone (r : Nat)
  | writeOutDone (r : Nat)
  | start (r : Nat)

/-- The rank of a step. -/
def Label.rank : Label → Nat
  | eventLoop r | completeSend r | deliver r | writeInDone r | writeOutDone r | start r => r

/-- A pending write is done. -/
def finishWrite (b : Option (Buf α)) : Except String (Option (Buf α)) :=
  match b with
  | some b =>
      if b.writeDone then throw "no pending write"
      else pure (some { b with writeDone := true })
  | none => throw "no buffer"

/-- One step. -/
def step (i : Inputs α) : Label → Ranks α → Except String (Ranks α)
  | .eventLoop r, s =>
      if (s.members r).phase = .resultAvailable then throw "not called again after Done"
      else do
        let (a, c) ← eventLoop i.nranks r (i.op (s.number r)) (s.number r) (s.members r) s.comm
        pure ({ s with comm := c }.put r a)
  | .completeSend r, s => do
      let f ← deref (s.members r).sendFuture
      if f.complete then throw "send already complete"
      else pure (s.put r { s.members r with sendFuture := some { f with complete := true } })
  | .deliver r, s => do
      let f ← deref (s.members r).recvFuture
      if f.complete then throw "receive already complete"
      else
        let value ← deref ((s.comm (f.src, r)).content? f.position)
        let f := { f with buffer := { f.buffer with value := value }, complete := true }
        pure (s.put r { s.members r with recvFuture := some f })
  | .writeInDone r, s => do
      let b ← finishWrite (s.members r).inBuffer
      pure (s.put r { s.members r with inBuffer := b })
  | .writeOutDone r, s => do
      let b ← finishWrite (s.members r).outBuffer
      pure (s.put r { s.members r with outBuffer := b })
  | .start r, s =>
      if (s.members r).phase = .resultAvailable then
        let number := s.number r + 1
        let s := { s with number := Function.update s.number r number }
        pure (s.put r (.make i.nranks r (i.input number r)))
      else throw "the AllReduce is not finished"

/-- The ranks as a transition system. -/
def system (i : Inputs α) : System (Ranks α) Label where
  init := fun s => s = .initial i
  step := fun s l s' => l.rank < i.nranks ∧ step i l s = .ok s'

end Rapidsmpf.AllReduce
