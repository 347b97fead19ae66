import Rapidsmpf.Lib.Transition
import Rapidsmpf.Lib.ActiveMessages
import Rapidsmpf.Communicator.ControlMessages

/-!
# Connecting the ranks of the UCXX communicator, and their barrier

`communicator/ucxx.cpp`: a client joins the cluster of the root, either by the worker address of the
root (with QueryRank) or by its host and port (a connection request, and RegisterListenerAddress).
The root assigns the ranks and distributes all listener addresses in its first barrier, between two
rounds of empty messages.

A process and what `progress_worker` does for it take steps one at a time: one active message is
handed over, or one delayed callback runs. The wait for a send to complete is no step of its own.
The stamps of the empty messages say for which barrier they are sent; no step reads them.
-/

namespace Rapidsmpf.Ucxx

open LittleEndian Codec Fallible Protocol

/-- The processes of a communicator with `m` clients: their worker addresses, and the listeners of
those clients that join by the host and port of the root. Addresses have fewer than 2^30 bytes. -/
structure Cluster (m : Nat) where
  rootWorker : Bytes
  rootHostPort : Bytes × UInt16
  worker : Fin m → Bytes
  listener : Fin m → Option (Bytes × UInt16)
  lt_max : m + 1 < 2 ^ 31
  worker_injective : Function.Injective worker
  rootWorker_lt : rootWorker.length < 2 ^ 30
  worker_lt : ∀ i, (worker i).length < 2 ^ 30
  listener_lt : ∀ i, ∀ hp ∈ listener i, hp.1.length < 2 ^ 30

/-- What an empty message of a barrier is sent for. -/
inductive Stamp where
  | call (barrier : Nat)
  | reply (barrier : Nat)
  | release (barrier : Nat)
deriving DecidableEq

abbrev Link : Type := ActiveLink Bytes Stamp

/-- A step that cannot be taken now, and the exceptions. -/
inductive Stop where
  | blocked
  | control (e : ControlError)
  | endpointExists
  | outOfRange
deriving DecidableEq

/-- A program point of a client: `connecting`, and waiting for its rank in `init`; between two
calls; in a barrier. -/
inductive ClientPhase where
  | connecting
  | waitingRank
  | idle
  | awaitingCall
  | replying
  | awaitingRelease
deriving DecidableEq

/-- A client: its resources, where the endpoints of its ranks lead to, and the barriers it has
entered and returned from. -/
structure Client where
  resources : SharedResources
  endpoints : List (Int32 × RemoteAddress)
  phase : ClientPhase
  entered : Nat
  returned : Nat

/-- A client with its connection to the root: its request to be connected, which the root has not
accepted, and the links to the root and back. -/
structure Peer where
  client : Client
  requested : Bool
  up : Link
  down : Link

/-- A program point of the root: between two calls, or in a barrier, with the endpoints that a loop
has still to come to. -/
inductive RootPhase (m : Nat) where
  | idle
  | waitingEndpoints
  | calling (left : Finset (Int32 × Fin m))
  | collecting (left : Finset (Int32 × Fin m))
  | distributing (left : Finset (Int32 × Fin m))
  | releasing (left : Finset (Int32 × Fin m))
deriving DecidableEq

/-- The root: `rank_to_endpoint_` but for the endpoint of the root to itself, with the client that
an endpoint leads to, and `listener_addresses_distributed_`. -/
structure Root (m : Nat) where
  resources : SharedResources
  endpoints : List (Int32 × Fin m)
  phase : RootPhase m
  distributed : Bool
  entered : Nat
  returned : Nat

structure State (m : Nat) where
  root : Root m
  peers : Fin m → Peer

/-! ## The code -/

/-- `register_endpoint`. -/
def registerEndpoint {α : Type} (rank : Int32) (endpoint : α) (endpoints : List (Int32 × α)) :
    Except Stop (List (Int32 × α)) :=
  if rank ∈ endpoints.map Prod.fst then throw .endpointExists
  else pure (endpoints ++ [(rank, endpoint)])

/-- `SharedResources` as it is constructed, with the entry that `register_listener` makes. -/
def SharedResources.start (rank : Int32) (worker : Bytes) : SharedResources where
  rank := rank
  nextRank := 1
  listenerAddresses :=
    AddressMap.emplace ⟨[], List.nodup_nil, fun _ h => absurd h List.not_mem_nil⟩ rank
      ⟨.worker worker, rank⟩ rfl
  delayed := []

section Client

variable {m : Nat} (c : Cluster m) (i : Fin m)

inductive ClientAction where
  /-- `init` connects to the root. -/
  | connect
  /-- `init` goes on with the rank. -/
  | finishInit
  /-- A message of the root is handed over. -/
  | progress
  | enter
  /-- A receive of `barrier` is complete. -/
  | receive
  /-- `barrier` answers the root. -/
  | reply
  /-- `UCXX::get_endpoint`, after the first barrier. -/
  | getEndpoint (rank : Int32)
deriving DecidableEq

/-- What `init` connects to: the remote address of the root. -/
def Cluster.rootAddress : RemoteAddress :=
  match c.listener i with
  | some _ => .hostPort c.rootHostPort.1 c.rootHostPort.2
  | none => .worker c.rootWorker

/-- `UCXX::get_endpoint`. -/
def Client.getEndpoint (rank : Int32) (client : Client) : Except Stop Client :=
  match client.endpoints.lookup rank with
  | some _ => pure client
  | none =>
      match client.resources.listenerAddresses.get rank with
      | none => throw .outOfRange
      | some a => do
          let endpoints ← registerEndpoint rank a.address client.endpoints
          pure { client with endpoints }

/-- The part of `init` before a client waits for its rank. -/
def Peer.connect (p : Peer) : Except Stop Peer := do
  let endpoints ← registerEndpoint 0 (c.rootAddress i) p.client.endpoints
  let p := { p with client := { p.client with endpoints, phase := .waitingRank } }
  match c.listener i with
  | some _ => pure { p with requested := true }
  | none =>
      let packed ← (controlPack .queryRank
        (.listenerAddress ⟨.worker (c.worker i), p.client.resources.rank⟩)).mapError .control
      pure { p with up := p.up.send (.control packed.buffer) }

/-- The part of `init` behind the loop in which a client waits for its rank. -/
def Peer.finishInit (p : Peer) : Except Stop Peer := do
  let rank := p.client.resources.rank
  let endpoints ← registerEndpoint rank (.worker (c.worker i)) p.client.endpoints
  let p := { p with client := { p.client with endpoints, phase := .idle } }
  match c.listener i with
  | none => pure p
  | some hp =>
      let packed ← (controlPack .registerListenerAddress
        (.listenerAddress ⟨.hostPort hp.1 hp.2, rank⟩)).mapError .control
      pure { p with up := p.up.send (.control packed.buffer) }

/-- A message of the root is handed over. -/
def Peer.progress (p : Peer) : Except Stop Peer :=
  match p.down.next? with
  | none => throw .blocked
  | some (.plain _) => pure { p with down := p.down.process }
  | some (.control buffer) => do
      let resources ← (controlUnpack buffer p.client.resources).mapError .control
      pure { p with down := p.down.process, client := { p.client with resources } }

/-- The start of `barrier`. -/
def Peer.enter (p : Peer) : Except Stop Peer :=
  match p.client.endpoints.lookup 0 with
  | none => throw .outOfRange
  | some _ => pure { p with client :=
      { p.client with phase := .awaitingCall, entered := p.client.entered + 1 } }

/-- A receive of `barrier` is complete. -/
def Peer.receive (p : Peer) : Except Stop Peer :=
  if p.down.matched?.isSome then
    match p.client.phase with
    | .awaitingCall =>
        pure { p with down := p.down.receive, client := { p.client with phase := .replying } }
    | .awaitingRelease =>
        pure { p with
          down := p.down.receive
          client := { p.client with phase := .idle, returned := p.client.returned + 1 } }
    | _ => throw .blocked
  else throw .blocked

/-- The step of a client. -/
def clientStep (a : ClientAction) (p : Peer) : Except Stop Peer :=
  match a with
  | .connect => if p.client.phase = .connecting then p.connect c i else throw .blocked
  | .finishInit =>
      if p.client.phase = .waitingRank ∧ p.client.resources.rank ≠ -1 then p.finishInit c i
      else throw .blocked
  | .progress => p.progress
  | .enter => if p.client.phase = .idle then p.enter else throw .blocked
  | .receive => p.receive
  | .reply =>
      if p.client.phase = .replying then
        pure { p with
          up := p.up.send (.plain (.reply p.client.entered))
          client := { p.client with phase := .awaitingRelease } }
      else throw .blocked
  | .getEndpoint rank =>
      if p.client.phase = .idle ∧ 0 < p.client.returned ∧ ∃ r ≤ m, rank = .ofNat r then do
        let client ← p.client.getEndpoint rank
        pure { p with client }
      else throw .blocked

end Client

section Root

variable {m : Nat} (c : Cluster m) (i : Fin m)

/-- What the root does by itself. -/
inductive RootAction where
  | enter
  /-- All endpoints are there. -/
  | start
  /-- A loop of `barrier` is at its end. -/
  | advance
deriving DecidableEq

/-- What the root does with one client. -/
inductive Exchange where
  /-- `listener_callback`. -/
  | accept
  /-- A message of the client is handed over. -/
  | progress
  /-- A delayed callback runs. -/
  | connectBack (rank : Int32)
  /-- A loop of `barrier` sends to the endpoint. -/
  | send (rank : Int32)
  /-- A receive of `barrier` is complete. -/
  | receive (rank : Int32)
deriving DecidableEq

namespace Root

/-- The endpoints to the other ranks. -/
def others (r : Root m) : Finset (Int32 × Fin m) :=
  (r.endpoints.filter fun e => decide (e.1 ≠ 0)).toFinset

/-- `register_endpoint`, with the endpoint of the root to itself. -/
def registerEndpoint (rank : Int32) (r : Root m) : Except Stop (Root m) := do
  if rank = 0 then throw .endpointExists
  let endpoints ← Ucxx.registerEndpoint rank i r.endpoints
  pure { r with endpoints }

/-- An endpoint is registered, and the rank of the client sent to it. -/
def assignRank (rank : Int32) (r : Root m) (p : Peer) : Except Stop (Root m × Peer) := do
  let r ← r.registerEndpoint i rank
  let packed ← (controlPack .assignRank (.rank rank)).mapError .control
  pure (r, { p with down := p.down.send (.control packed.buffer) })

/-- `listener_callback`. -/
def listenerCallback (r : Root m) (p : Peer) : Except Stop (Root m × Peer) :=
  if p.requested then
    if r.resources.rank = 0 then
      let resources := { r.resources with nextRank := r.resources.nextRank + 1 }
      assignRank i r.resources.nextRank { r with resources } { p with requested := false }
    else throw (.control .notRoot)
  else throw .blocked

/-- The delayed callback of a rank, which connects to its worker address. -/
def connectBack (rank : Int32) (r : Root m) (p : Peer) : Except Stop (Root m × Peer) :=
  if rank ∈ r.resources.delayed then
    match r.resources.listenerAddresses.get rank with
    | none => throw .outOfRange
    | some ⟨.hostPort _ _, _⟩ => throw (.control .badVariant)
    | some ⟨.worker address, _⟩ =>
        if address = c.worker i then
          let resources := { r.resources with delayed := r.resources.delayed.erase rank }
          assignRank i rank { r with resources } p
        else throw .blocked
  else throw .blocked

/-- A turn of a loop of `barrier` or `distribute_listener_addresses` that sends. -/
def send (rank : Int32) (r : Root m) (p : Peer) : Except Stop (Root m × Peer) :=
  match r.phase with
  | .calling left =>
      if (rank, i) ∈ left then
        pure ({ r with phase := .calling (left.erase (rank, i)) },
          { p with down := p.down.send (.plain (.call r.entered)) })
      else throw .blocked
  | .distributing left =>
      if (rank, i) ∈ left then do
        let packed ← (packDistributed r.resources.listenerAddresses rank).mapError .control
        pure ({ r with phase := .distributing (left.erase (rank, i)) },
          { p with down := p.down.send (.control packed.buffer) })
      else throw .blocked
  | .releasing left =>
      if (rank, i) ∈ left then
        pure ({ r with phase := .releasing (left.erase (rank, i)) },
          { p with down := p.down.send (.plain (.release r.entered)) })
      else throw .blocked
  | _ => throw .blocked

/-- A receive from an endpoint is complete. -/
def receive (rank : Int32) (r : Root m) (p : Peer) : Except Stop (Root m × Peer) :=
  match r.phase with
  | .collecting left =>
      if (rank, i) ∈ left ∧ p.up.matched?.isSome then
        pure ({ r with phase := .collecting (left.erase (rank, i)) },
          { p with up := p.up.receive })
      else throw .blocked
  | _ => throw .blocked

end Root

/-- The step of the root with a client. -/
def exchangeStep (a : Exchange) (r : Root m) (p : Peer) : Except Stop (Root m × Peer) :=
  match a with
  | .accept => r.listenerCallback i p
  | .progress =>
      match p.up.next? with
      | none => throw .blocked
      | some (.plain _) => pure (r, { p with up := p.up.process })
      | some (.control buffer) => do
          let resources ← (controlUnpack buffer r.resources).mapError .control
          pure ({ r with resources }, { p with up := p.up.process })
  | .connectBack rank => r.connectBack c i rank p
  | .send rank => r.send i rank p
  | .receive rank => r.receive i rank p

/-- A loop of `barrier` is at its end. -/
def Root.advance (r : Root m) : Except Stop (Root m) :=
  match r.phase with
  | .calling left =>
      if left = ∅ then pure { r with phase := .collecting r.others } else throw .blocked
  | .collecting left =>
      if left = ∅ then
        if r.distributed then pure { r with phase := .releasing r.others }
        else pure { r with distributed := true, phase := .distributing r.others }
      else throw .blocked
  | .distributing left =>
      if left = ∅ then pure { r with phase := .releasing r.others } else throw .blocked
  | .releasing left =>
      if left = ∅ then pure { r with phase := .idle, returned := r.returned + 1 }
      else throw .blocked
  | _ => throw .blocked

/-- The step of the root alone. -/
def rootStep (a : RootAction) (r : Root m) : Except Stop (Root m) :=
  match a with
  | .enter =>
      if r.phase = .idle then
        pure { r with phase := .waitingEndpoints, entered := r.entered + 1 }
      else throw .blocked
  | .start =>
      if r.phase = .waitingEndpoints ∧ r.endpoints.length + 1 = m + 1 then
        pure { r with phase := .calling r.others }
      else throw .blocked
  | .advance => r.advance

end Root

/-! ## The system -/

inductive Label (m : Nat) where
  | client (i : Fin m) (a : ClientAction)
  | exchange (i : Fin m) (a : Exchange)
  | root (a : RootAction)
deriving DecidableEq

variable {m : Nat}

def step (c : Cluster m) (l : Label m) (s : State m) : Except Stop (State m) :=
  match l with
  | .client i a => do
      let p ← clientStep c i a (s.peers i)
      pure { s with peers := Function.update s.peers i p }
  | .exchange i a => do
      let (root, p) ← exchangeStep c i a s.root (s.peers i)
      pure ⟨root, Function.update s.peers i p⟩
  | .root a => do
      let root ← rootStep a s.root
      pure { s with root }

/-- A client that has not connected. -/
def Peer.start (c : Cluster m) (i : Fin m) : Peer where
  client := ⟨.start (-1) (c.worker i), [], .connecting, 0, 0⟩
  requested := false
  up := .empty
  down := .empty

def State.start (c : Cluster m) : State m where
  root := ⟨.start 0 c.rootWorker, [], .idle, false, 0, 0⟩
  peers := Peer.start c

/-- The communicator, from the start of the root. -/
def system (c : Cluster m) : System (State m) (Label m) where
  init s := s = .start c
  step s l s' := step c l s = .ok s'

end Rapidsmpf.Ucxx
