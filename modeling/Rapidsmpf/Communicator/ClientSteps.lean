import Rapidsmpf.Communicator.Stages

/-!
# The steps of a client

Every step of a client that can be taken keeps what holds of the client, and none ends with an
exception.
-/

namespace Rapidsmpf.Ucxx

open LittleEndian Codec Fallible Protocol

/-- A step that does not end with an exception, and what holds of its result. -/
def Keeps {α : Type} (P : α → Prop) : Except Stop α → Prop
  | .ok a => P a
  | .error e => e = .blocked

theorem Keeps.bind {α β : Type} {Q : α → Prop} {P : β → Prop} {x : Except Stop α}
    {f : α → Except Stop β} (hx : Keeps Q x) (hf : ∀ a, Q a → Keeps P (f a)) :
    Keeps P (x >>= f) := by
  cases x with
  | ok a => exact hf a hx
  | error e => exact hx

theorem Keeps.mono {α : Type} {P Q : α → Prop} {x : Except Stop α} (hx : Keeps P x)
    (himp : ∀ a, P a → Q a) : Keeps Q x := by
  cases x with
  | ok a => exact himp a hx
  | error e => exact hx

/-- A new rank can be registered. -/
theorem register_endpoint_ok {α : Type} {rank : Int32} {endpoints : List (Int32 × α)}
    (h : rank ∉ endpoints.map Prod.fst) (endpoint : α) :
    registerEndpoint rank endpoint endpoints = .ok (endpoints ++ [(rank, endpoint)]) := by
  rw [registerEndpoint, if_neg h]
  rfl

variable {m : Nat} {c : Cluster m} {order : List (Fin m)} {r : Root m} {i : Fin m} {p : Peer}
  {k : Nat}

theorem worker_size (c : Cluster m) (i : Fin m) (rank : Int32) :
    listenerAddressPackedSize ⟨.worker (c.worker i), rank⟩ ≤ 2 ^ 30 + 18 := by
  have hlt := c.worker_lt i
  show 4 + 8 + (c.worker i).length + 4 ≤ _
  omega

/-! ## Joining -/

theorem Unconnected.connect (h : Unconnected c order r i p)
    (hphase : p.client.phase = .connecting) :
    Keeps (PeerInv c order r i) (p.connect c i) := by
  have hopening := h.opening
  cases hopening with
  | requested hp hlistener hwaiting => rw [hwaiting] at hphase; cases hphase
  | queried hlistener hwaiting => rw [hwaiting] at hphase; cases hphase
  | delayed k hlistener hwaiting => rw [hwaiting] at hphase; cases hphase
  | connecting _ hrequested hup horder hendpoints =>
      rw [Peer.connect, hendpoints, register_endpoint_ok List.not_mem_nil]
      cases hlistener : c.listener i with
      | some hp =>
          refine .unconnected ⟨h.down, h.endpoints, h.resources, h.entered, h.returned, ?_⟩
          exact .requested hp hlistener rfl rfl hup horder rfl
      | none =>
          have hrank : p.client.resources.rank = -1 := by
            rw [h.resources]
            rfl
          have hpack := control_pack_address_ok (.inl rfl) (worker_size c i (-1))
          show Keeps _ ((controlPack .queryRank (.listenerAddress ⟨.worker (c.worker i),
            p.client.resources.rank⟩)).mapError .control >>= fun packed => pure _)
          rw [hrank, hpack]
          refine .unconnected ⟨h.down, h.endpoints, h.resources, h.entered, h.returned, ?_⟩
          refine .queried hlistener rfl hrequested ?_ horder rfl
          rw [Cluster.opening, hlistener, hup]
          rfl

/-- A client with a rank goes on. -/
theorem Connected.finishInit (h : Connected c order r i p k) (hroot : RootInv c order r)
    (hphase : p.client.phase = .waitingRank) (hrank : p.client.resources.rank ≠ -1) :
    Keeps (PeerInv c order r i) (p.finishInit c i) := by
  have hlearned := h.down.learned hroot.nodup
  have hprocessed : 0 < p.down.processed := by
    by_contra hzero
    rw [hlearned.start (Nat.eq_zero_of_not_pos hzero)] at hrank
    exact hrank rfl
  have hreturned := (h.waiting hphase).1
  have hendpoints := (h.waiting hphase).2
  have hlength := length_le_of_nodup hroot.nodup
  obtain ⟨hlt, -⟩ := List.getElem?_eq_some_iff.mp h.assigned
  have hmax := c.lt_max
  have hne : Int32.ofNat (k + 1) ≠ 0 := by
    intro heq
    have hzero := ofNat_inj (j := k + 1) (k := 0) (by omega) (by decide) heq
    omega
  have hself : Int32.ofNat (k + 1) ∉ [(0, c.rootAddress i)].map Prod.fst := by
    rw [List.map_singleton, List.mem_singleton]
    exact hne
  have hleads : ∀ e ∈ [(0, c.rootAddress i)] ++ [(.ofNat (k + 1), .worker (c.worker i))],
      Leads c order i e := by
    intro e he
    rcases List.mem_cons.mp he with rfl | he
    · exact .root
    · rw [List.mem_singleton.mp he]
      exact .self h.assigned
  have hlookup : ([(0, c.rootAddress i)] ++ [(Int32.ofNat (k + 1),
      RemoteAddress.worker (c.worker i))]).lookup (Int32.ofNat (k + 1)) =
        some (.worker (c.worker i)) := by
    show (_ :: [_]).lookup _ = _
    rw [List.lookup_cons, beq_eq_false_iff_ne.mpr hne]
    exact List.lookup_cons_self
  have hreplies : p.client.replies = 0 := by
    rw [Client.replies, hphase, hreturned]
  have hcalls : p.client.calls = 2 * p.client.returned := by
    rw [Client.calls, hphase]
  have hentered := h.entered
  rw [Client.inside, hphase] at hentered
  have hup := h.up
  have hdown := h.down
  rw [hreplies] at hup
  rw [hcalls] at hdown
  rw [Peer.finishInit, hlearned.rank hprocessed, hendpoints, register_endpoint_ok hself]
  cases hlistener : c.listener i with
  | none =>
      refine .connected k ⟨h.endpoint, h.assigned, h.requested, by simp, ?_, hdown,
        fun _ => hprocessed, by simp, hentered, hleads, ⟨_, rfl⟩, fun _ => ⟨_, hlookup⟩,
        h.registered⟩
      refine ⟨hup.valid, ?_, hup.queried, hup.received⟩
      show p.up.sent = c.opening i _ .idle ++ (replyStamps p.client.returned).map .plain
      rw [hup.sent, hreturned, Cluster.opening, Cluster.opening, hlistener]
  | some hp =>
      have hpack := control_pack_address_ok (.inr rfl) (c.reported_size i (.ofNat (k + 1)))
      show Keeps _ ((controlPack .registerListenerAddress (.listenerAddress
        ⟨.hostPort hp.1 hp.2, .ofNat (k + 1)⟩)).mapError .control >>= fun packed => pure _)
      rw [← Cluster.reported_listener hlistener, hpack]
      refine .connected k ⟨h.endpoint, h.assigned, h.requested, by simp, ?_, hdown,
        fun _ => hprocessed, by simp, hentered, hleads, ⟨_, rfl⟩, fun _ => ⟨_, hlookup⟩,
        h.registered⟩
      refine ⟨hup.valid.send _, ?_, fun hnone => absurd (hlistener.symm.trans hnone) (by simp),
        hup.received⟩
      show p.up.sent ++ [_] = c.opening i _ .idle ++ (replyStamps p.client.returned).map .plain
      rw [hup.sent, hreturned, Cluster.opening, Cluster.opening, hlistener, hphase]
      rfl

/-! ## Messages -/

theorem Unconnected.progress (h : Unconnected c order r i p) :
    Keeps (PeerInv c order r i) p.progress := by
  rw [Peer.progress, h.down]
  rfl

theorem Connected.progress (h : Connected c order r i p k) (hroot : RootInv c order r) :
    Keeps (PeerInv c order r i) p.progress := by
  rw [Peer.progress]
  cases hnext : p.down.next? with
  | none => exact rfl
  | some message =>
      obtain ⟨resources, hreplay, hdown⟩ := h.down.process hroot.nodup hnext
      cases message with
      | plain stamp =>
          cases hreplay
          exact .connected k ⟨h.endpoint, h.assigned, h.requested, h.phase, h.up, hdown,
            fun _ => Nat.succ_pos _, h.waiting, h.entered, h.leads, h.rootEndpoint, h.selfEndpoint,
            h.registered⟩
      | control buffer =>
          rw [replay_single] at hreplay
          dsimp only
          rw [hreplay]
          exact .connected k ⟨h.endpoint, h.assigned, h.requested, h.phase, h.up, hdown,
            fun _ => Nat.succ_pos _, h.waiting, h.entered, h.leads, h.rootEndpoint, h.selfEndpoint,
            h.registered⟩

/-! ## Barriers -/

theorem Connected.enter (h : Connected c order r i p k) (hphase : p.client.phase = .idle) :
    Keeps (PeerInv c order r i) p.enter := by
  obtain ⟨address, haddress⟩ := h.rootEndpoint
  have hup := h.up
  have hdown := h.down
  have hentered := h.entered
  simp only [Client.replies, Client.calls, Client.inside, hphase] at hup hdown hentered
  rw [Peer.enter, haddress]
  refine .connected k ⟨h.endpoint, h.assigned, h.requested, by simp, ?_, hdown,
    fun _ => h.joined (by simp [hphase]), by simp, congrArg (· + 1) hentered, h.leads,
    h.rootEndpoint, fun _ => h.selfEndpoint (by simp [hphase]), h.registered⟩
  exact ⟨hup.valid, hup.sent, hup.queried, hup.received⟩

theorem Connected.reply (h : Connected c order r i p k) (hphase : p.client.phase = .replying) :
    Connected c order r i { p with
      up := p.up.send (.plain (.reply p.client.entered))
      client := { p.client with phase := .awaitingRelease } } k := by
  have hup := h.up
  have hdown := h.down
  have hentered := h.entered
  simp only [Client.replies, Client.calls, Client.inside, hphase] at hup hdown hentered
  have hstamp : Stamp.reply p.client.entered = replyStamp p.client.returned := by
    rw [hentered]
    rfl
  rw [hstamp]
  exact ⟨h.endpoint, h.assigned, h.requested, by simp, hup.reply rfl, hdown,
    fun _ => h.joined (by simp [hphase]), by simp, hentered, h.leads, h.rootEndpoint,
    fun _ => h.selfEndpoint (by simp [hphase]), h.registered⟩

/-- The call of the root or the release is received. -/
theorem Connected.receive (h : Connected c order r i p k) :
    Keeps (PeerInv c order r i) p.receive := by
  rw [Peer.receive]
  split
  · next hmatched =>
      obtain ⟨stamp, hstamp⟩ := Option.isSome_iff_exists.mp hmatched
      have hup := h.up
      have hdown := h.down
      have hentered := h.entered
      split
      · next hphase =>
          simp only [Client.replies, Client.calls, Client.inside, hphase] at hup hdown hentered
          refine .connected k ⟨h.endpoint, h.assigned, h.requested, by simp, ?_,
            hdown.receive hstamp, fun _ => h.joined (by simp [hphase]), by simp, hentered, h.leads,
            h.rootEndpoint, fun _ => h.selfEndpoint (by simp [hphase]), h.registered⟩
          exact ⟨hup.valid, hup.sent, hup.queried, hup.received⟩
      · next hphase =>
          simp only [Client.replies, Client.calls, Client.inside, hphase] at hup hdown hentered
          refine .connected k ⟨h.endpoint, h.assigned, h.requested, by simp, ?_,
            hdown.receive hstamp, fun _ => h.joined (by simp [hphase]), by simp, hentered, h.leads,
            h.rootEndpoint, fun _ => h.selfEndpoint (by simp [hphase]), h.registered⟩
          exact ⟨hup.valid, hup.sent, hup.queried, hup.received⟩
      · exact rfl
  · exact rfl


/-! ## Endpoints -/

/-- The addresses that a client has after its first barrier: those of all ranks but its own. -/
theorem Connected.addresses (h : Connected c order r i p k) (hroot : RootInv c order r)
    (hreturned : 0 < p.client.returned) {j : Nat} (hj : j ≤ m) :
    ∃ a, c.addressOf order j = some a ∧
      p.client.resources.listenerAddresses.get (.ofNat j) =
        if Int32.ofNat j = .ofNat (k + 1) then none else some a := by
  have hcalls : 1 < p.client.calls := by
    rw [Client.calls]
    split <;> omega
  obtain ⟨hannounced, hprocessed, a, hcomplete⟩ := h.down.read_addresses hcalls
  obtain ⟨x, haddress, -⟩ := hcomplete j hj
  have hlearned := (h.down.learned hroot.nodup).addresses hannounced hprocessed j hj
  have hmax := c.lt_max
  rw [get_start, if_neg (ofNat_ne_neg_one (by omega)), Option.none_or, haddress] at hlearned
  exact ⟨x, haddress, hlearned⟩

theorem Connected.get_endpoint (h : Connected c order r i p k) (hroot : RootInv c order r)
    (hphase : p.client.phase = .idle) (hreturned : 0 < p.client.returned) {j : Nat} (hj : j ≤ m) :
    Keeps (fun client => PeerInv c order r i { p with client })
      (p.client.getEndpoint (.ofNat j)) := by
  obtain ⟨a, haddress, hget⟩ := h.addresses hroot hreturned hj
  rw [Client.getEndpoint]
  split
  · next address hlookup => exact .connected k h
  · next hlookup =>
      have hself : Int32.ofNat j ≠ .ofNat (k + 1) := by
        intro heq
        obtain ⟨address, haddress⟩ := h.selfEndpoint (by simp [hphase])
        rw [← heq, hlookup] at haddress
        cases haddress
      have hnew : Int32.ofNat j ∉ p.client.endpoints.map Prod.fst := by
        intro hmem
        obtain ⟨e, he, hkey⟩ := List.mem_map.mp hmem
        have hne := List.lookup_eq_none_iff.mp hlookup e he
        exact bne_iff_ne.mp hne hkey.symm
      rw [hget, if_neg hself]
      dsimp only
      rw [register_endpoint_ok hnew]
      have hkept : ∀ {rank : Int32} {address : RemoteAddress},
          p.client.endpoints.lookup rank = some address →
          (p.client.endpoints ++ [(Int32.ofNat j, a.address)]).lookup rank =
            some address := by
        intro rank address haddress
        rw [List.lookup_append, haddress, Option.some_or]
      obtain ⟨address, hroot⟩ := h.rootEndpoint
      obtain ⟨address', hself⟩ := h.selfEndpoint (by simp [hphase])
      refine .connected k ⟨h.endpoint, h.assigned, h.requested, h.phase, h.up, h.down, h.joined,
        fun hwaiting => absurd (hphase.symm.trans hwaiting) (by simp), h.entered, fun e he => ?_,
        ⟨address, hkept hroot⟩, fun _ => ⟨address', hkept hself⟩, h.registered⟩
      rcases List.mem_append.mp he with he | he
      · exact h.leads e he
      · rw [List.mem_singleton.mp he]
        exact .other haddress

/-- A client that has its rank is connected. -/
theorem PeerInv.connected_of_phase (h : PeerInv c order r i p)
    (hconnecting : p.client.phase ≠ .connecting) (hwaiting : p.client.phase ≠ .waitingRank) :
    ∃ k, Connected c order r i p k := by
  cases h with
  | connected k h => exact ⟨k, h⟩
  | unconnected h =>
      cases h.opening with
      | connecting hphase => exact absurd hphase hconnecting
      | requested hp hlistener hphase => exact absurd hphase hwaiting
      | queried hlistener hphase => exact absurd hphase hwaiting
      | delayed k hlistener hphase => exact absurd hphase hwaiting

/-- The steps of a client. -/
theorem PeerInv.client_step (h : PeerInv c order r i p) (hroot : RootInv c order r)
    (a : ClientAction) : Keeps (PeerInv c order r i) (clientStep c i a p) := by
  cases a with
  | connect =>
      simp only [clientStep]
      split
      · next hphase =>
          cases h with
          | unconnected h => exact h.connect hphase
          | connected k h => exact absurd hphase h.phase
      · exact rfl
  | finishInit =>
      simp only [clientStep]
      split
      · next hready =>
          cases h with
          | unconnected h =>
              refine absurd ?_ hready.2
              rw [h.resources]
              rfl
          | connected k h => exact h.finishInit hroot hready.1 hready.2
      · exact rfl
  | progress =>
      cases h with
      | unconnected h => exact h.progress
      | connected k h => exact h.progress hroot
  | enter =>
      simp only [clientStep]
      split
      · next hphase =>
          obtain ⟨k, hc⟩ := h.connected_of_phase (by simp [hphase]) (by simp [hphase])
          exact hc.enter hphase
      · exact rfl
  | receive =>
      cases h with
      | unconnected h =>
          simp only [clientStep]
          rw [Peer.receive, h.down]
          exact rfl
      | connected k h => exact h.receive
  | reply =>
      simp only [clientStep]
      split
      · next hphase =>
          obtain ⟨k, hc⟩ := h.connected_of_phase (by simp [hphase]) (by simp [hphase])
          exact .connected k (hc.reply hphase)
      · exact rfl
  | getEndpoint rank =>
      simp only [clientStep]
      split
      · next hcall =>
          obtain ⟨hphase, hreturned, j, hj, rfl⟩ := hcall
          obtain ⟨k, hc⟩ := h.connected_of_phase (by simp [hphase]) (by simp [hphase])
          exact (hc.get_endpoint hroot hphase hreturned hj).bind fun client hclient => hclient
      · exact rfl

end Rapidsmpf.Ucxx
