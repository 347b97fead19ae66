import Rapidsmpf.Communicator.Discovery

/-!
# The stages of a client

What every run of a communicator keeps. A client is unconnected until the root has an endpoint to
it. From then on the number of empty messages on its links, and which of them were received, follows
from the program points of the root and of the client, and the announcement of the addresses stands
between the first call and the first release.
-/

namespace Rapidsmpf.Ucxx

open LittleEndian Codec Fallible Protocol

/-! ## Counters -/

/-- The empty messages of the root to a client: a call and a release for each barrier. -/
def callStamp (t : Nat) : Stamp :=
  if t % 2 = 0 then .call (t / 2 + 1) else .release (t / 2 + 1)

/-- The empty messages of a client to the root. -/
def replyStamp (t : Nat) : Stamp := .reply (t + 1)

theorem callStamp_even (b : Nat) : callStamp (2 * b) = .call (b + 1) := by
  rw [callStamp, if_pos (Nat.mul_mod_right 2 b), Nat.mul_div_cancel_left b (by decide)]

theorem callStamp_odd (b : Nat) : callStamp (2 * b + 1) = .release (b + 1) := by
  have hmod : ¬(2 * b + 1) % 2 = 0 := by omega
  have hdiv : (2 * b + 1) / 2 = b := by omega
  rw [callStamp, if_neg hmod, hdiv]

def callStamps (n : Nat) : List Stamp := (List.range n).map callStamp

def replyStamps (n : Nat) : List Stamp := (List.range n).map replyStamp

theorem replyStamps_succ (n : Nat) : replyStamps (n + 1) = replyStamps n ++ [replyStamp n] := by
  rw [replyStamps, List.range_succ, List.map_append]
  rfl

namespace Client

/-- The empty messages that a client has received. -/
def calls (client : Client) : Nat :=
  match client.phase with
  | .replying | .awaitingRelease => 2 * client.returned + 1
  | _ => 2 * client.returned

/-- The empty messages that a client has sent. -/
def replies (client : Client) : Nat :=
  match client.phase with
  | .awaitingRelease => client.returned + 1
  | _ => client.returned

/-- The barriers that a client is inside. -/
def inside (client : Client) : Nat :=
  match client.phase with
  | .awaitingCall | .replying | .awaitingRelease => 1
  | _ => 0

end Client

section Root

variable {m : Nat}

namespace Root

/-- The empty messages that the root has sent to an endpoint. -/
def calls (r : Root m) (e : Int32 × Fin m) : Nat :=
  match r.phase with
  | .idle | .waitingEndpoints => 2 * r.returned
  | .calling left => 2 * r.returned + if e ∈ left then 0 else 1
  | .collecting _ | .distributing _ => 2 * r.returned + 1
  | .releasing left => 2 * r.returned + 1 + if e ∈ left then 0 else 1

/-- The empty messages that the root has received from an endpoint. -/
def replies (r : Root m) (e : Int32 × Fin m) : Nat :=
  match r.phase with
  | .idle | .waitingEndpoints | .calling _ => r.returned
  | .collecting left => r.returned + if e ∈ left then 0 else 1
  | .distributing _ | .releasing _ => r.returned + 1

/-- The root has sent the addresses to an endpoint. -/
def announced (r : Root m) (e : Int32 × Fin m) : Bool :=
  match r.phase with
  | .distributing left => decide (e ∉ left)
  | _ => r.distributed

/-- The barriers that the root is inside. -/
def inside (r : Root m) : Nat :=
  match r.phase with
  | .idle => 0
  | _ => 1

/-- The endpoints that a loop has still to come to. -/
def left (r : Root m) : Finset (Int32 × Fin m) :=
  match r.phase with
  | .idle | .waitingEndpoints => ∅
  | .calling left | .collecting left | .distributing left | .releasing left => left

/-- The root has seen all endpoints. -/
def Started (r : Root m) : Prop :=
  0 < r.returned ∨ (r.phase ≠ .idle ∧ r.phase ≠ .waitingEndpoints)

/-- The root has begun to send the addresses. -/
def Distributes (r : Root m) : Prop :=
  0 < r.returned ∨ (∃ left, r.phase = .distributing left) ∨ ∃ left, r.phase = .releasing left

end Root

end Root

/-! ## Links -/

/-- What the messages of a link do to the resources of a client. -/
def replay (messages : List (ActiveMessage Bytes Stamp)) (s : SharedResources) :
    Except ControlError SharedResources :=
  messages.foldlM (fun s message =>
    match message with
    | .control buffer => controlUnpack buffer s
    | .plain _ => pure s) s

variable {m : Nat}

/-- The messages of the root to the client with rank `k + 1`, with a number of empty ones; before
the addresses are sent, and with them. -/
inductive Announces (c : Cluster m) (order : List (Fin m)) (k : Nat) :
    Nat → Bool → List (ActiveMessage Bytes Stamp) → Prop where
  | early {n : Nat} : n ≤ 1 →
      Announces c order k n false
        (.control (assignMessage (.ofNat (k + 1))) :: (callStamps n).map .plain)
  | late {n : Nat} (a : AddressMap) : c.Right order a → c.Complete order a →
      Announces c order k (n + 1) true
        (.control (assignMessage (.ofNat (k + 1))) :: .plain (callStamp 0) ::
          .control (distributedMessage a (.ofNat (k + 1))) ::
          (List.range n).map fun t => .plain (callStamp (t + 1)))

/-- The control message of a client. -/
def Cluster.opening (c : Cluster m) (i : Fin m) (rank : Int32) (phase : ClientPhase) :
    List (ActiveMessage Bytes Stamp) :=
  match c.listener i with
  | none => [.control (addressMessage .queryRank ⟨.worker (c.worker i), -1⟩)]
  | some _ =>
      if phase = .waitingRank then []
      else [.control (addressMessage .registerListenerAddress (c.reported i rank))]

/-- An endpoint leads to the process that has its rank. -/
inductive Leads (c : Cluster m) (order : List (Fin m)) (i : Fin m) : Int32 × RemoteAddress → Prop
    where
  | root : Leads c order i (0, c.rootAddress i)
  | self {k : Nat} : order[k]? = some i →
      Leads c order i (.ofNat (k + 1), .worker (c.worker i))
  | other {k : Nat} {a : ListenerAddress} : c.addressOf order k = some a →
      Leads c order i (.ofNat k, a.address)

/-- The link of the client with rank `k + 1` to the root, with the numbers of replies that were sent
and received. -/
structure UpLink (c : Cluster m) (i : Fin m) (k : Nat) (phase : ClientPhase)
    (replies received : Nat) (up : Link) : Prop where
  valid : up.Valid
  sent : up.sent = c.opening i (.ofNat (k + 1)) phase ++ (replyStamps replies).map .plain
  queried : c.listener i = none → 0 < up.processed
  received : up.received = received

/-- The link of the root to the client with rank `k + 1`, with the numbers of empty messages that
were sent and received. -/
structure DownLink (c : Cluster m) (order : List (Fin m)) (i : Fin m) (k calls : Nat)
    (announced : Bool) (received : Nat) (resources : SharedResources) (down : Link) : Prop where
  valid : down.Valid
  sent : Announces c order k calls announced down.sent
  received : down.received = received
  resources : replay (down.sent.take down.processed) (.start (-1) (c.worker i)) = .ok resources

/-! ## Stages -/

section Stages

variable (c : Cluster m) (order : List (Fin m)) (r : Root m) (i : Fin m) (p : Peer)

/-- The stages before the root has an endpoint to the client. -/
inductive Opening : Prop where
  | connecting : p.client.phase = .connecting → p.requested = false → p.up = .empty →
      i ∉ order → p.client.endpoints = [] → Opening
  | requested (hp : Bytes × UInt16) : c.listener i = some hp → p.client.phase = .waitingRank →
      p.requested = true → p.up = .empty → i ∉ order →
      p.client.endpoints = [(0, c.rootAddress i)] → Opening
  | queried : c.listener i = none → p.client.phase = .waitingRank → p.requested = false →
      p.up = ⟨c.opening i (-1) .waitingRank, 0, 0⟩ → i ∉ order →
      p.client.endpoints = [(0, c.rootAddress i)] → Opening
  | delayed (k : Nat) : c.listener i = none → p.client.phase = .waitingRank →
      p.requested = false → p.up = ⟨c.opening i (-1) .waitingRank, 1, 0⟩ → order[k]? = some i →
      .ofNat (k + 1) ∈ r.resources.delayed →
      p.client.endpoints = [(0, c.rootAddress i)] → Opening

/-- A client that the root has no endpoint to. -/
structure Unconnected : Prop where
  down : p.down = .empty
  endpoints : ∀ rank, (rank, i) ∉ r.endpoints
  resources : p.client.resources = .start (-1) (c.worker i)
  entered : p.client.entered = 0
  returned : p.client.returned = 0
  opening : Opening c order r i p

/-- A client that the root has an endpoint to, which has the rank `k + 1`. -/
structure Connected (k : Nat) : Prop where
  endpoint : (.ofNat (k + 1), i) ∈ r.endpoints
  assigned : order[k]? = some i
  requested : p.requested = false
  phase : p.client.phase ≠ .connecting
  up : UpLink c i k p.client.phase p.client.replies (r.replies (.ofNat (k + 1), i)) p.up
  down : DownLink c order i k (r.calls (.ofNat (k + 1), i)) (r.announced (.ofNat (k + 1), i))
    p.client.calls p.client.resources p.down
  joined : p.client.phase ≠ .waitingRank → 0 < p.down.processed
  waiting : p.client.phase = .waitingRank →
    p.client.returned = 0 ∧ p.client.endpoints = [(0, c.rootAddress i)]
  entered : p.client.entered = p.client.returned + p.client.inside
  leads : ∀ e ∈ p.client.endpoints, Leads c order i e
  rootEndpoint : ∃ address, p.client.endpoints.lookup 0 = some address
  selfEndpoint : p.client.phase ≠ .waitingRank →
    ∃ address, p.client.endpoints.lookup (.ofNat (k + 1)) = some address
  registered : c.listener i = none ∨ 0 < p.up.processed →
    r.resources.listenerAddresses.get (.ofNat (k + 1)) = some (c.reported i (.ofNat (k + 1)))

/-- What every run keeps of a client. -/
inductive PeerInv : Prop where
  | unconnected : Unconnected c order r i p → PeerInv
  | connected (k : Nat) : Connected c order r i p k → PeerInv

/-- What every run keeps of the root. -/
structure RootInv : Prop where
  rank : r.resources.rank = 0
  nextRank : r.resources.nextRank = .ofNat (order.length + 1)
  nodup : order.Nodup
  ranks : (r.endpoints.map Prod.fst ++ r.resources.delayed).Perm
    ((List.range order.length).map fun k => .ofNat (k + 1))
  endpoints : ∀ e ∈ r.endpoints, ∃ k, e.1 = .ofNat (k + 1) ∧ order[k]? = some e.2
  delayed : ∀ rank ∈ r.resources.delayed, ∃ k i, rank = .ofNat (k + 1) ∧ order[k]? = some i ∧
    r.resources.listenerAddresses.get rank = some ⟨.worker (c.worker i), rank⟩
  right : c.Right order r.resources.listenerAddresses
  root : r.resources.listenerAddresses.get 0 = some ⟨.worker c.rootWorker, 0⟩
  started : r.Started → r.endpoints.length = m
  left : r.left ⊆ r.others
  distributed : r.distributed = true ↔ r.Distributes
  entered : r.entered = r.returned + r.inside

end Stages

/-- What every run keeps. -/
structure Inv (c : Cluster m) (order : List (Fin m)) (s : State m) : Prop where
  root : RootInv c order s.root
  peers : ∀ i, PeerInv c order s.root i (s.peers i)

/-! ## Links of the root -/

section Links

variable {c : Cluster m} {order : List (Fin m)} {k n : Nat} {announced : Bool}
  {sent : List (ActiveMessage Bytes Stamp)}

theorem filterMap_plain (stamps : List Stamp) :
    (stamps.map (.plain (κ := Bytes))).filterMap ActiveMessage.stamp? = stamps := by
  rw [List.filterMap_map]
  exact List.filterMap_some

/-- The empty messages of the root, in order. -/
theorem Announces.plains (h : Announces c order k n announced sent) :
    sent.filterMap ActiveMessage.stamp? = callStamps n := by
  cases h with
  | early hn => exact filterMap_plain (callStamps n)
  | @late n a hright hcomplete =>
      show callStamp 0 :: ((List.range n).map fun t => .plain (callStamp (t + 1))).filterMap
        ActiveMessage.stamp? = callStamps (n + 1)
      have hmap : ((List.range n).map fun t => ActiveMessage.plain (κ := Bytes)
          (callStamp (t + 1))) = ((List.range n).map fun t => callStamp (t + 1)).map .plain := by
        rw [List.map_map]
        rfl
      rw [hmap, filterMap_plain, callStamps, List.range_succ_eq_map, List.map_cons, List.map_map]
      rfl

/-- An empty message is sent when the addresses are, or as the first one. -/
theorem Announces.send_plain (h : Announces c order k n announced sent)
    (hn : announced = true ∨ n = 0) :
    Announces c order k (n + 1) announced (sent ++ [.plain (callStamp n)]) := by
  cases h with
  | early hle =>
      rcases hn with hn | rfl
      · cases hn
      · exact .early (Nat.le_refl 1)
  | @late n a hright hcomplete =>
      have hsent : (List.range (n + 1)).map (fun t => ActiveMessage.plain (κ := Bytes)
          (callStamp (t + 1))) = ((List.range n).map fun t => .plain (callStamp (t + 1))) ++
            [.plain (callStamp (n + 1))] := by
        rw [List.range_succ, List.map_append]
        rfl
      have hlate := Announces.late (n := n + 1) (k := k) a hright hcomplete
      rw [hsent] at hlate
      exact hlate

/-- The addresses are sent behind the first call. -/
theorem Announces.send_addresses {a : AddressMap} (h : Announces c order k 1 false sent)
    (hright : c.Right order a) (hcomplete : c.Complete order a) :
    Announces c order k 1 true
      (sent ++ [.control (distributedMessage a (.ofNat (k + 1)))]) := by
  cases h with
  | early hle => exact .late (n := 0) a hright hcomplete

theorem Announces.concat (h : Announces c order k n announced sent) (i : Fin m) :
    Announces c (order ++ [i]) k n announced sent := by
  cases h with
  | early hle => exact .early hle
  | late a hright hcomplete => exact .late a (hright.concat i) (hcomplete.concat i)

theorem replay_concat (messages : List (ActiveMessage Bytes Stamp))
    (message : ActiveMessage Bytes Stamp) (s : SharedResources) :
    replay (messages ++ [message]) s = replay messages s >>= replay [message] := by
  rw [replay, List.foldlM_append]
  rfl

theorem replay_control {buffer : Bytes} {s s' : SharedResources}
    (h : controlUnpack buffer s = .ok s') (messages : List (ActiveMessage Bytes Stamp)) :
    replay (.control buffer :: messages) s = replay messages s' := by
  rw [replay, List.foldlM_cons]
  show controlUnpack buffer s >>= replay messages = _
  rw [h]
  rfl

theorem replay_single (buffer : Bytes) (s : SharedResources) :
    replay [.control buffer] s = controlUnpack buffer s := by
  rw [replay, List.foldlM_cons]
  show controlUnpack buffer s >>= pure = _
  exact bind_pure _

theorem replay_empty (stamp : Stamp) (messages : List (ActiveMessage Bytes Stamp))
    (s : SharedResources) : replay (.plain stamp :: messages) s = replay messages s := by
  rw [replay, List.foldlM_cons]
  rfl

/-- Empty messages change nothing. -/
theorem replay_plain {messages : List (ActiveMessage Bytes Stamp)}
    (h : ∀ message ∈ messages, ∃ stamp, message = .plain stamp) (s : SharedResources) :
    replay messages s = .ok s := by
  induction messages with
  | nil => rfl
  | cons message messages ih =>
      obtain ⟨stamp, rfl⟩ := h message List.mem_cons_self
      rw [replay_empty]
      exact ih fun message hmessage => h message (List.mem_cons_of_mem _ hmessage)

theorem replay_take_map {α : Type} (f : α → Stamp) (l : List α) (t : Nat) (s : SharedResources) :
    replay ((l.map fun x => .plain (f x)).take t) s = .ok s := by
  refine replay_plain (fun message hmessage => ?_) s
  obtain ⟨x, -, hx⟩ := List.mem_map.mp (List.mem_of_mem_take hmessage)
  exact ⟨f x, hx.symm⟩

/-- What a client has learned when it has processed a number of messages: its rank from the first
one, and the addresses of the others from the third. -/
structure Learned (c : Cluster m) (order : List (Fin m)) (k t : Nat) (announced : Bool)
    (s s' : SharedResources) : Prop where
  start : t = 0 → s' = s
  rank : 0 < t → s'.rank = .ofNat (k + 1)
  addresses : announced = true → 2 < t → ∀ j ≤ m, s'.listenerAddresses.get (.ofNat j) =
    (s.listenerAddresses.get (.ofNat j)).or
      (if Int32.ofNat j = .ofNat (k + 1) then none else c.addressOf order j)

/-- The messages of the root are all read. -/
theorem Announces.learned (h : Announces c order k n announced sent) (hnodup : order.Nodup)
    (s : SharedResources) (t : Nat) :
    ∃ s', replay (sent.take t) s = .ok s' ∧ Learned c order k t announced s s' := by
  cases t with
  | zero => exact ⟨s, rfl, fun _ => rfl, fun h => absurd h (Nat.lt_irrefl 0),
      fun _ h => absurd h (Nat.not_lt_zero 2)⟩
  | succ t =>
      cases h with
      | early hle =>
          refine ⟨{ s with rank := .ofNat (k + 1) }, ?_, by simp, fun _ => rfl, by simp⟩
          rw [List.take_succ_cons, replay_control (unpack_assign _ s)]
          exact replay_take_map id (callStamps n) t _
      | @late n a hright hcomplete =>
          match t with
          | 0 =>
              refine ⟨{ s with rank := .ofNat (k + 1) }, ?_, by simp, fun _ => rfl, fun _ h => ?_⟩
              · rw [List.take_succ_cons, replay_control (unpack_assign _ s)]
                rfl
              · exact absurd h (by decide)
          | 1 =>
              refine ⟨{ s with rank := .ofNat (k + 1) }, ?_, by simp, fun _ => rfl, fun _ h => ?_⟩
              · rw [List.take_succ_cons, replay_control (unpack_assign _ s)]
                rfl
              · exact absurd h (by decide)
          | t + 2 =>
              obtain ⟨addresses, hunpack, haddresses⟩ := unpack_right hright hnodup
                (.ofNat (k + 1)) { s with rank := .ofNat (k + 1) }
              refine ⟨{ s with rank := .ofNat (k + 1), listenerAddresses := addresses }, ?_,
                by simp, fun _ => rfl, fun _ _ j hj => ?_⟩
              · rw [List.take_succ_cons, List.take_succ_cons, List.take_succ_cons,
                  replay_control (unpack_assign _ s), replay_empty, replay_control hunpack]
                exact replay_take_map (fun t => callStamp (t + 1)) (List.range n) t _
              · obtain ⟨x, haddress, hx⟩ := hcomplete j hj
                show addresses.get _ = _
                rw [haddresses, hx, haddress]

namespace DownLink

variable {i : Fin m} {calls received : Nat} {resources : SharedResources} {down : Link}

/-- What the client has learned. -/
theorem learned (h : DownLink c order i k calls announced received resources down)
    (hnodup : order.Nodup) :
    Learned c order k down.processed announced (.start (-1) (c.worker i)) resources := by
  obtain ⟨s, hs, hlearned⟩ := h.sent.learned hnodup (.start (-1) (c.worker i)) down.processed
  rw [h.resources] at hs
  cases hs
  exact hlearned

/-- The next message is read. -/
theorem process (h : DownLink c order i k calls announced received resources down)
    (hnodup : order.Nodup) {message : ActiveMessage Bytes Stamp}
    (hnext : down.next? = some message) :
    ∃ resources', replay [message] resources = .ok resources' ∧
      DownLink c order i k calls announced received resources' down.process := by
  obtain ⟨s, hs, -⟩ := h.sent.learned hnodup (.start (-1) (c.worker i)) (down.processed + 1)
  obtain ⟨hlt, hm⟩ := List.getElem?_eq_some_iff.mp hnext
  have hsplit := hs
  rw [← List.take_append_getElem hlt, hm, replay_concat, h.resources] at hsplit
  exact ⟨s, hsplit, h.valid.process hnext, h.sent, h.received, hs⟩

/-- A receive of the client gets the empty message of its number. -/
theorem stamp_eq (h : DownLink c order i k calls announced received resources down) {stamp : Stamp}
    (hmatched : down.matched? = some stamp) : received < calls ∧ stamp = callStamp received := by
  have hplain := ActiveLink.plains_of_matched hmatched
  rw [ActiveLink.plains, h.sent.plains, h.received, callStamps, List.getElem?_map] at hplain
  obtain ⟨t, ht, rfl⟩ := Option.map_eq_some_iff.mp hplain
  obtain ⟨hlt, rfl⟩ := List.getElem?_eq_some_iff.mp ht
  rw [List.length_range] at hlt
  exact ⟨hlt, by rw [List.getElem_range]⟩

theorem receive (h : DownLink c order i k calls announced received resources down) {stamp : Stamp}
    (hmatched : down.matched? = some stamp) :
    DownLink c order i k calls announced (received + 1) resources down.receive :=
  ⟨h.valid.receive hmatched, h.sent, congrArg (· + 1) h.received, h.resources⟩

/-- What was received was sent. -/
theorem received_le (h : DownLink c order i k calls announced received resources down) :
    received ≤ calls := by
  have hle := h.valid.received_le_plains
  rw [ActiveLink.plains, h.sent.plains, h.received, callStamps, List.length_map,
    List.length_range] at hle
  exact hle

/-- The client has received a release, so it has read the addresses. -/
theorem read_addresses (h : DownLink c order i k calls announced received resources down)
    (hreceived : 1 < received) :
    announced = true ∧ 2 < down.processed ∧ ∃ a, c.Complete order a := by
  have hle := h.received_le
  have hsent := h.sent
  generalize hdown : down.sent = sent at hsent
  cases hsent with
  | early hcalls => omega
  | @late n a hright hcomplete =>
      have hfront : down.sent = [.control (assignMessage (.ofNat (k + 1))), .plain (callStamp 0),
          .control (distributedMessage a (.ofNat (k + 1)))] ++
            (List.range n).map fun t => .plain (callStamp (t + 1)) := hdown
      have hlt := h.valid.processed_of_received hfront (by
        rw [h.received]
        exact hreceived)
      exact ⟨rfl, Nat.lt_of_succ_lt hlt, a, hcomplete⟩

/-- A message is sent. -/
theorem send (h : DownLink c order i k calls announced received resources down) {calls' : Nat}
    {announced' : Bool} {message : ActiveMessage Bytes Stamp}
    (hsent : Announces c order k calls' announced' (down.sent ++ [message])) :
    DownLink c order i k calls' announced' received resources (down.send message) := by
  refine ⟨h.valid.send message, hsent, h.received, ?_⟩
  rw [ActiveLink.sent_send, ActiveLink.processed_send,
    List.take_append_of_le_length h.valid.processed_le]
  exact h.resources

end DownLink

namespace UpLink

variable {i : Fin m} {phase : ClientPhase} {replies received : Nat} {up : Link}

theorem plains (h : UpLink c i k phase replies received up) : up.plains = replyStamps replies := by
  rw [ActiveLink.plains, h.sent, List.filterMap_append, filterMap_plain]
  have hopening : (c.opening i (.ofNat (k + 1)) phase).filterMap ActiveMessage.stamp? = [] := by
    rw [Cluster.opening]
    split
    · rfl
    · split <;> rfl
  rw [hopening, List.nil_append]

/-- A receive of the root gets the reply of its number. -/
theorem stamp_eq (h : UpLink c i k phase replies received up) {stamp : Stamp}
    (hmatched : up.matched? = some stamp) : received < replies ∧ stamp = replyStamp received := by
  have hplain := ActiveLink.plains_of_matched hmatched
  rw [h.plains, h.received, replyStamps, List.getElem?_map] at hplain
  obtain ⟨t, ht, rfl⟩ := Option.map_eq_some_iff.mp hplain
  obtain ⟨hlt, rfl⟩ := List.getElem?_eq_some_iff.mp ht
  rw [List.length_range] at hlt
  exact ⟨hlt, by rw [List.getElem_range]⟩

theorem receive (h : UpLink c i k phase replies received up) {stamp : Stamp}
    (hmatched : up.matched? = some stamp) : UpLink c i k phase replies (received + 1) up.receive :=
  ⟨h.valid.receive hmatched, h.sent, h.queried, congrArg (· + 1) h.received⟩

/-- What was received was sent. -/
theorem received_le (h : UpLink c i k phase replies received up) : received ≤ replies := by
  have hle := h.valid.received_le_plains
  rw [h.plains, h.received, replyStamps, List.length_map, List.length_range] at hle
  exact hle

theorem process (h : UpLink c i k phase replies received up)
    {message : ActiveMessage Bytes Stamp} (hnext : up.next? = some message) :
    UpLink c i k phase replies received up.process :=
  ⟨h.valid.process hnext, h.sent, fun _ => Nat.succ_pos _, h.received⟩

/-- A client answers the root. -/
theorem reply (h : UpLink c i k phase replies received up) {phase' : ClientPhase}
    (hopening : c.opening i (.ofNat (k + 1)) phase' = c.opening i (.ofNat (k + 1)) phase) :
    UpLink c i k phase' (replies + 1) received (up.send (.plain (replyStamp replies))) := by
  refine ⟨h.valid.send _, ?_, h.queried, h.received⟩
  rw [ActiveLink.sent_send, h.sent, hopening, replyStamps_succ, List.map_append,
    List.append_assoc]
  rfl

/-- The root has received a reply, so it has processed the control message in front. -/
theorem processed_of_received (h : UpLink c i k phase replies received up)
    (hreceived : 0 < received) (hphase : phase ≠ .waitingRank) : 0 < up.processed := by
  cases hlistener : c.listener i with
  | none => exact h.queried hlistener
  | some hp =>
      have hlt := h.valid.processed_of_received h.sent (by
        rw [Cluster.opening, hlistener]
        dsimp only
        rw [if_neg hphase, h.received]
        exact hreceived)
      exact Nat.lt_of_le_of_lt (Nat.zero_le _) hlt

end UpLink

end Links

end Rapidsmpf.Ucxx
