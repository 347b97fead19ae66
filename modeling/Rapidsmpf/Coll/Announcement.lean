import Rapidsmpf.Coll.Insertion

/-!
# What a rank announces, and what it has enqueued

The AllGather and the SparseAlltoall count a call of `insert` before the constructor of the chunk
has accepted its packed data, the Shuffler counts a chunk after it has validated it. So the first
two announce a chunk that never comes for every call whose packed data lost its metadata, or, in
an AllGather of one rank, its data; and the third announces what it has enqueued, whatever threw.
The counters of the AllGather and the finish messages of both are narrower than their chunks may
be numerous, which is the other part of the conditions.
-/

namespace Rapidsmpf.AllGather

open Coll
open Shuffle (PackedData)

variable {nranks rank : Nat} {call : Call} {calls : List Call} {a : Members}

/-- What a call comes to while the collective is not finished. -/
def Call.kind (nranks : Nat) (call : Call) : Attempt :=
  match call.sendable nranks with
  | .error _ => .refused
  | .ok data => RawPackedData.counted ⟨call.packed.metadata, data⟩

/-- A sequence of calls, of which those that throw are given up. -/
def attempts (nranks rank : Nat) (calls : List Call) (a : Members) : Members :=
  calls.foldl (fun a call => (attempt nranks rank call a).2) a

end Rapidsmpf.AllGather

namespace Rapidsmpf.Coll.SparseAlltoall

open Shuffle (PackedData)

variable {rank : Rank} {call : Call} {calls : List Call} {s : Members} {dsts : List Rank}

/-- What a call comes to while the collective is not finished. -/
def Call.kind (dsts : List Rank) (call : Call) : Attempt :=
  if call.dst ∈ dsts then
    match ensureMemoryType addressableMemoryTypes call.converted call.packed.data with
    | .error _ => .refused
    | .ok data => RawPackedData.counted ⟨call.packed.metadata, some data⟩
  else .refused

/-- A sequence of calls, of which those that throw are given up. -/
def attempts (rank : Rank) (calls : List Call) (s : Members) : Members :=
  calls.foldl (fun s call => (insert rank call s).2) s

end Rapidsmpf.Coll.SparseAlltoall

namespace Rapidsmpf.Shuffle

open Coll (RawPackedData ensureMemoryType)

variable {cfg : Config} {rank r : Rank} {c : Chunk} {s s' : Shuffler} {log log' : List Chunk}

/-- The inserted chunks for a rank. -/
def chunksFor (cfg : Config) (r : Rank) (log : List Chunk) : List Chunk :=
  log.filter fun c => cfg.partitionOwner c.partId = r

/-- The chunks that were inserted are where they belong, and are counted. -/
structure Logged (cfg : Config) (rank : Rank) (s : Shuffler) (log : List Chunk) : Prop where
  counter : ∀ r, s.outboundChunkCounter r = (chunksFor cfg r log).length % 2 ^ 64
  toSend : s.toSend = log.filter fun c => !decide (cfg.partitionOwner c.partId = rank)
  received : ∀ p, s.received p =
    (chunksFor cfg rank log).filter fun c => c.partId = p

/-- Steps that leave the chunks and the counters alone. -/
theorem Logged.frame (hs : Logged cfg rank s log)
    (hcounter : s'.outboundChunkCounter = s.outboundChunkCounter) (htoSend : s'.toSend = s.toSend)
    (hreceived : s'.received = s.received) : Logged cfg rank s' log where
  counter := hcounter ▸ hs.counter
  toSend := htoSend ▸ hs.toSend
  received := hreceived ▸ hs.received

/-- A sequence of calls, of which those that throw are given up, as long as all are defined. -/
def attempts (cfg : Config) (rank : Rank) (calls : List (List Element))
    (s : Shuffler × List Chunk) : Option (Shuffler × List Chunk) :=
  calls.foldlM (fun s es => (attempt cfg rank es s).map Prod.snd) s

end Rapidsmpf.Shuffle

namespace Rapidsmpf.Coll

/-- A byte of host memory. -/
def oneByte : Buffer := .singleton .host 7

end Rapidsmpf.Coll
