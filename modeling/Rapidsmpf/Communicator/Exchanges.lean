import Rapidsmpf.Communicator.RootSteps

/-!
# The exchanges of the root with a client

What a step of the root with one client keeps: `listener_callback`, the control messages and the
delayed callbacks while the clients join, and the turns of the loops of `barrier`.
-/

namespace Rapidsmpf.Ucxx

open LittleEndian Codec Fallible Protocol

variable {m : Nat} {c : Cluster m} {order : List (Fin m)} {r : Root m} {i : Fin m} {p : Peer}
  {k : Nat} {rank : Int32}

/-- What holds behind a step of the root with a client. -/
def Exchanged (c : Cluster m) (order : List (Fin m)) (r : Root m) (i : Fin m)
    (x : Root m × Peer) : Prop :=
  ∃ order', RootInv c order' x.1 ∧ PeerInv c order' x.1 i x.2 ∧
    ∀ j ≠ i, Kept order order' r x.1 j

/-! ## Ranks -/

theorem mem_order_of_length (hnodup : order.Nodup) (hlength : order.length = m) (i : Fin m) :
    i ∈ order := by
  have hcard : order.toFinset.card = Fintype.card (Fin m) := by
    rw [List.toFinset_card_of_nodup hnodup, hlength, Fintype.card_fin]
  exact List.mem_toFinset.mp (Finset.eq_univ_of_card _ hcard ▸ Finset.mem_univ i)

namespace RootInv

/-- Every assigned rank has an endpoint, or a delayed callback that will make it. -/
theorem length_eq (h : RootInv c order r) :
    r.endpoints.length + r.resources.delayed.length = order.length := by
  have hlength := h.ranks.length_eq
  rwa [List.length_append, List.length_map, List.length_map, List.length_range] at hlength

theorem nodup_ranks (h : RootInv c order r) :
    (r.endpoints.map Prod.fst ++ r.resources.delayed).Nodup := by
  refine h.ranks.nodup_iff.mpr (List.Nodup.map_on (fun j hj k hk heq => ?_) List.nodup_range)
  have hlength := length_le_of_nodup h.nodup
  have hmax := c.lt_max
  have hj := List.mem_range.mp hj
  have hk := List.mem_range.mp hk
  exact Nat.succ.inj (ofNat_inj (by omega) (by omega) heq)

/-- The root that has started has an endpoint to every client. -/
theorem endpoint_of_length (h : RootInv c order r) (hlength : r.endpoints.length = m)
    (i : Fin m) : ∃ rank, (rank, i) ∈ r.endpoints := by
  have hsum := h.length_eq
  have hle := length_le_of_nodup h.nodup
  have hdelayed : r.resources.delayed = [] := List.length_eq_zero_iff.mp (by omega)
  have hmem := mem_order_of_length h.nodup (by omega) i
  obtain ⟨k, hk, hi⟩ := List.getElem_of_mem hmem
  have hranks := h.ranks
  rw [hdelayed, List.append_nil] at hranks
  have hrank : Int32.ofNat (k + 1) ∈ r.endpoints.map Prod.fst :=
    hranks.mem_iff.mpr (List.mem_map.mpr ⟨k, List.mem_range.mpr hk, rfl⟩)
  obtain ⟨⟨rank, j⟩, he, rfl⟩ := List.mem_map.mp hrank
  obtain ⟨k', hk', hrank', hj⟩ := h.rank_of_endpoint he
  have hmax := c.lt_max
  have hkk : k = k' := Nat.succ.inj (ofNat_inj (by omega) (by omega) hrank')
  obtain rfl : i = j := by
    rw [← hkk, List.getElem?_eq_getElem hk, hi] at hj
    exact Option.some.inj hj
  exact ⟨_, he⟩

/-- The root that has no endpoint to some client waits for it. -/
theorem not_started (h : RootInv c order r) (hi : ∀ rank, (rank, i) ∉ r.endpoints) :
    ¬ r.Started := by
  intro hstarted
  obtain ⟨rank, hmem⟩ := h.endpoint_of_length (h.started hstarted) i
  exact hi rank hmem

end RootInv

/-- Nothing of a barrier has been sent or received before all endpoints are there. -/
theorem counters_of_not_started (h : ¬ r.Started)
    (hdistributed : r.distributed = true ↔ r.Distributes)
    (e : Int32 × Fin m) : r.calls e = 0 ∧ r.replies e = 0 ∧ r.announced e = false ∧ r.left = ∅ := by
  have hreturned : r.returned = 0 := Nat.eq_zero_of_not_pos fun hpos => h (.inl hpos)
  have hnot : r.distributed = false := by
    refine Bool.eq_false_iff.mpr fun htrue => ?_
    rcases hdistributed.mp htrue with hpos | ⟨left, hphase⟩ | ⟨left, hphase⟩
    · exact h (.inl hpos)
    · exact h (.inr (by simp [hphase]))
    · exact h (.inr (by simp [hphase]))
  cases hphase : r.phase with
  | idle => simp [Root.calls, Root.replies, Root.announced, Root.left, hphase, hreturned, hnot]
  | waitingEndpoints =>
      simp [Root.calls, Root.replies, Root.announced, Root.left, hphase, hreturned, hnot]
  | _ => exact absurd (.inr (by simp [hphase])) h

/-! ## Joining -/

/-- A client to which the root sends its rank. -/
theorem connected_of_assigned (hphase : p.client.phase = .waitingRank)
    (hrequested : p.requested = false) (hentered : p.client.entered = 0)
    (hreturned : p.client.returned = 0) (hresources : p.client.resources = .start (-1) (c.worker i))
    (hendpoints : p.client.endpoints = [(0, c.rootAddress i)]) (hdown : p.down = .empty)
    (hvalid : p.up.Valid) (hsent : p.up.sent = c.opening i (.ofNat (k + 1)) .waitingRank)
    (hqueried : c.listener i = none → 0 < p.up.processed) (hreceived : p.up.received = 0)
    (hendpoint : (.ofNat (k + 1), i) ∈ r.endpoints) (hassigned : order[k]? = some i)
    (hcounters : ∀ e, r.calls e = 0 ∧ r.replies e = 0 ∧ r.announced e = false ∧ r.left = ∅)
    (hregistered : c.listener i = none ∨ 0 < p.up.processed →
      r.resources.listenerAddresses.get (.ofNat (k + 1)) =
        some (c.reported i (.ofNat (k + 1)))) :
    Connected c order r i
      { p with down := p.down.send (.control (assignMessage (.ofNat (k + 1)))) } k := by
  obtain ⟨hcalls, hreplies, hannounced, -⟩ := hcounters (.ofNat (k + 1), i)
  refine ⟨hendpoint, hassigned, hrequested, by simp [hphase], ?_, ?_,
    fun hne => absurd hphase hne, fun _ => ⟨hreturned, hendpoints⟩, ?_, fun e he => ?_,
    ⟨c.rootAddress i, by rw [hendpoints]; rfl⟩, fun hne => absurd hphase hne, hregistered⟩
  · rw [hreplies, Client.replies, hphase]
    refine ⟨hvalid, ?_, hqueried, hreceived⟩
    dsimp only
    rw [hsent, hreturned]
    exact (List.append_nil _).symm
  · rw [hcalls, hannounced, Client.calls, hphase, hdown]
    refine ⟨ActiveLink.Valid.empty.send _, .early (Nat.zero_le 1), ?_, ?_⟩
    · dsimp only
      rw [hreturned]
      rfl
    · dsimp only
      rw [hresources]
      rfl
  · rw [Client.inside, hphase]
    exact hentered.trans hreturned.symm
  · have he : e ∈ [(0, c.rootAddress i)] := hendpoints ▸ he
    rw [List.mem_singleton.mp he]
    exact .root

/-- An endpoint to a client is none to another one. -/
theorem mem_concat_endpoint {j : Fin m} (hj : j ≠ i) {endpoints : List (Int32 × Fin m)}
    (q : Int32) : (q, j) ∈ endpoints ++ [(rank, i)] ↔ (q, j) ∈ endpoints := by
  rw [List.mem_append, List.mem_singleton, or_iff_left]
  exact fun heq => hj (Prod.mk.inj heq).2

/-- A new endpoint is registered, and its rank sent. -/
theorem assign_rank_eq (hrank : rank ≠ 0) (hnew : rank ∉ r.endpoints.map Prod.fst) :
    Root.assignRank i rank r p =
      .ok ({ r with endpoints := r.endpoints ++ [(rank, i)] },
        { p with down := p.down.send (.control (assignMessage rank)) }) := by
  rw [Root.assignRank, Root.registerEndpoint, if_neg hrank, control_pack_rank]
  show (registerEndpoint rank i r.endpoints >>= fun endpoints => pure _) >>= _ = _
  rw [register_endpoint_ok hnew]
  rfl

/-- `listener_callback`. -/
theorem Unconnected.accept (h : Unconnected c order r i p) (hroot : RootInv c order r) :
    Keeps (Exchanged c order r i) (r.listenerCallback i p) := by
  rw [Root.listenerCallback]
  cases h.opening with
  | connecting hphase hrequested => rw [hrequested]; exact rfl
  | queried hlistener hphase hrequested => rw [hrequested]; exact rfl
  | delayed k hlistener hphase hrequested => rw [hrequested]; exact rfl
  | requested hp hlistener hphase hrequested hup horder hendpoints =>
      have hnodup : (order ++ [i]).Nodup :=
        hroot.nodup.append (List.nodup_singleton i) (List.disjoint_singleton.mpr horder)
      have hlength := length_le_of_nodup hnodup
      rw [List.length_append, List.length_singleton] at hlength
      have hmax := c.lt_max
      have hcounters := counters_of_not_started (hroot.not_started h.endpoints) hroot.distributed
      have hrank : Int32.ofNat (order.length + 1) ≠ 0 := c.succ_ne_zero (by omega)
      have hnew : Int32.ofNat (order.length + 1) ∉ r.endpoints.map Prod.fst := by
        intro hmem
        have hmem := hroot.ranks.mem_iff.mp (List.mem_append_left _ hmem)
        obtain ⟨k, hk, heq⟩ := List.mem_map.mp hmem
        have hk := List.mem_range.mp hk
        have hkk := ofNat_inj (by omega) (by omega) heq
        omega
      rw [if_pos hrequested, if_pos hroot.rank, hroot.nextRank]
      dsimp only
      rw [assign_rank_eq hrank (r := ⟨{ r.resources with
        nextRank := .ofNat (order.length + 1) + 1 }, r.endpoints, r.phase, r.distributed, r.entered,
        r.returned⟩) hnew]
      refine ⟨order ++ [i], ?_, .connected order.length ?_, fun j hj => ?_⟩
      · refine ⟨hroot.rank, ?_, hnodup, ?_, fun e he => ?_, fun rank hrank => ?_,
          hroot.right.concat i, hroot.root, fun hstarted => absurd hstarted
            (hroot.not_started h.endpoints), ?_, hroot.distributed, hroot.entered⟩
        · rw [List.length_append]
          exact ofNat_succ _
        · dsimp only
          rw [List.map_append, List.length_append, List.length_singleton, List.range_succ,
            List.map_append, List.append_assoc]
          refine (List.perm_append_comm.append_left _).trans ?_
          rw [← List.append_assoc]
          exact hroot.ranks.append_right _
        · rcases List.mem_append.mp he with he | he
          · obtain ⟨k, hk, hi⟩ := hroot.endpoints e he
            obtain ⟨hlt, -⟩ := List.getElem?_eq_some_iff.mp hi
            exact ⟨k, hk, (List.getElem?_append_left hlt).trans hi⟩
          · rw [List.mem_singleton.mp he]
            exact ⟨order.length, rfl, List.getElem?_concat_length⟩
        · obtain ⟨k, j, hk, hj, hget⟩ := hroot.delayed rank hrank
          obtain ⟨hlt, -⟩ := List.getElem?_eq_some_iff.mp hj
          exact ⟨k, j, hk, (List.getElem?_append_left hlt).trans hj, hget⟩
        · show r.left ⊆ _
          rw [(hcounters (0, i)).2.2.2]
          exact Finset.empty_subset _
      · refine connected_of_assigned hphase rfl h.entered h.returned h.resources hendpoints h.down
          (hup ▸ ActiveLink.Valid.empty) ?_ ?_ (congrArg ActiveLink.received hup)
          (List.mem_append_right _ List.mem_cons_self) List.getElem?_concat_length hcounters ?_
        · dsimp only
          rw [hup, Cluster.opening, hlistener]
          rfl
        · intro hnone
          rw [hlistener] at hnone
          cases hnone
        · intro hregistered
          rcases hregistered with hnone | hprocessed
          · rw [hlistener] at hnone
            cases hnone
          · dsimp only at hprocessed
            rw [hup] at hprocessed
            cases hprocessed
      · exact ⟨.inr ⟨i, hj.symm, rfl⟩, mem_concat_endpoint hj, fun _ _ => rfl, fun _ _ => rfl,
          fun _ _ => rfl, fun _ _ h => h, fun _ _ h => h⟩

theorem Cluster.rank_inj (c : Cluster m) (hnodup : order.Nodup) {i j : Fin m} {k k' : Nat}
    (hk : order[k]? = some i) (hk' : order[k']? = some j)
    (heq : Int32.ofNat (k + 1) = Int32.ofNat (k' + 1)) : k = k' := by
  obtain ⟨hlt, -⟩ := List.getElem?_eq_some_iff.mp hk
  obtain ⟨hlt', -⟩ := List.getElem?_eq_some_iff.mp hk'
  have hlength := length_le_of_nodup hnodup
  have hmax := c.lt_max
  exact Nat.succ.inj (ofNat_inj (by omega) (by omega) heq)

theorem index_eq (hnodup : order.Nodup) {j k : Nat} (hj : order[j]? = some i)
    (hk : order[k]? = some i) : j = k := by
  obtain ⟨hlt, -⟩ := List.getElem?_eq_some_iff.mp hj
  exact (List.getElem?_inj hlt hnodup).mp (hj.trans hk.symm)

/-- A delayed callback connects to a client that has no endpoint yet. -/
theorem RootInv.unconnected_of_delayed (hroot : RootInv c order r) (h : PeerInv c order r i p)
    (hrank : Int32.ofNat (k + 1) ∈ r.resources.delayed) (hk : order[k]? = some i) :
    Unconnected c order r i p := by
  cases h with
  | unconnected h => exact h
  | connected k' h =>
      obtain rfl := index_eq hroot.nodup hk h.assigned
      have hdisjoint := (List.nodup_append'.mp hroot.nodup_ranks).2.2
      exact absurd hrank (hdisjoint (List.mem_map_of_mem h.endpoint))

theorem RootInv.connect_back (hroot : RootInv c order r) (h : PeerInv c order r i p)
    (rank : Int32) : Keeps (Exchanged c order r i) (r.connectBack c i rank p) := by
  rw [Root.connectBack]
  split
  · next hdelayed =>
      obtain ⟨k, j, rfl, hj, hget⟩ := hroot.delayed rank hdelayed
      rw [hget]
      dsimp only
      split
      · next haddress =>
          obtain rfl := c.worker_injective haddress
          have hu := hroot.unconnected_of_delayed h hdelayed hj
          have hcounters := counters_of_not_started (hroot.not_started hu.endpoints)
            hroot.distributed
          obtain ⟨hlt, -⟩ := List.getElem?_eq_some_iff.mp hj
          have hlength := length_le_of_nodup hroot.nodup
          have hrank := c.succ_ne_zero (Nat.lt_of_lt_of_le hlt hlength)
          have hnew : Int32.ofNat (k + 1) ∉ r.endpoints.map Prod.fst := by
            have hdisjoint := (List.nodup_append'.mp hroot.nodup_ranks).2.2
            exact fun hmem => hdisjoint hmem hdelayed
          rw [assign_rank_eq hrank (r := ⟨{ r.resources with
            delayed := r.resources.delayed.erase (.ofNat (k + 1)) }, r.endpoints, r.phase,
            r.distributed, r.entered, r.returned⟩) hnew]
          cases hu.opening with
          | connecting hphase hrequested hup horder =>
              exact absurd (List.mem_of_getElem? hj) horder
          | requested hp hlistener hphase hrequested hup horder =>
              exact absurd (List.mem_of_getElem? hj) horder
          | queried hlistener hphase hrequested hup horder =>
              exact absurd (List.mem_of_getElem? hj) horder
          | delayed k' hlistener hphase hrequested hup horder hk' hendpoints =>
              refine ⟨order, ?_, .connected k ?_, fun j' hj' => ?_⟩
              · refine ⟨hroot.rank, hroot.nextRank, hroot.nodup, ?_, fun e he => ?_,
                  fun rank hrank => hroot.delayed rank (List.mem_of_mem_erase hrank), hroot.right,
                  hroot.root, fun hstarted => absurd hstarted (hroot.not_started hu.endpoints), ?_,
                  hroot.distributed, hroot.entered⟩
                · dsimp only
                  rw [List.map_append, List.append_assoc]
                  exact ((List.perm_cons_erase hdelayed).symm.append_left _).trans hroot.ranks
                · rcases List.mem_append.mp he with he | he
                  · exact hroot.endpoints e he
                  · rw [List.mem_singleton.mp he]
                    exact ⟨k, rfl, hj⟩
                · show r.left ⊆ _
                  rw [(hcounters (0, j)).2.2.2]
                  exact Finset.empty_subset _
              · have hvalid : p.up.Valid := by
                  rw [hup]
                  refine ⟨?_, Nat.zero_le _⟩
                  rw [Cluster.opening, hlistener]
                  exact Nat.le_refl 1
                refine connected_of_assigned hphase hrequested hu.entered hu.returned hu.resources
                  hendpoints hu.down hvalid ?_ (fun _ => hup ▸ Nat.one_pos)
                  (congrArg ActiveLink.received hup) (List.mem_append_right _ List.mem_cons_self) hj
                  hcounters fun _ => ?_
                · rw [hup, Cluster.opening, Cluster.opening, hlistener]
                · rw [Cluster.reported_worker hlistener]
                  exact hget
              · refine ⟨.inl rfl, mem_concat_endpoint hj', fun _ _ => rfl, fun _ _ => rfl,
                  fun _ _ => rfl, fun k' hk' hmem => ?_, fun _ _ h => h⟩
                refine (List.mem_erase_of_ne fun heq => hj' ?_).mpr hmem
                obtain rfl := c.rank_inj hroot.nodup hk' hj heq
                exact Option.some.inj (hk'.symm.trans hj)
      · exact rfl
  · exact rfl

/-! ## Control messages -/

/-- The root registers addresses: it keeps those that it has. -/
theorem Kept.of_addresses {j : Fin m} {addresses : AddressMap}
    (haddresses : ∀ rank a, r.resources.listenerAddresses.get rank = some a →
      addresses.get rank = some a) :
    Kept order order r { r with resources :=
      { r.resources with listenerAddresses := addresses } } j :=
  ⟨.inl rfl, fun _ => Iff.rfl, fun _ _ => rfl, fun _ _ => rfl, fun _ _ => rfl, fun _ _ h => h,
    haddresses⟩

/-- QueryRank is handed over. -/
theorem Unconnected.query (h : Unconnected c order r i p) (hroot : RootInv c order r)
    (hlistener : c.listener i = none) (hphase : p.client.phase = .waitingRank)
    (hrequested : p.requested = false) (hup : p.up = ⟨c.opening i (-1) .waitingRank, 0, 0⟩)
    (horder : i ∉ order) (hendpoints : p.client.endpoints = [(0, c.rootAddress i)]) :
    Keeps (Exchanged c order r i) (exchangeStep c i .progress r p) := by
  have hnext : p.up.next? = some (.control
      (addressMessage .queryRank ⟨.worker (c.worker i), -1⟩)) := by
    rw [hup, Cluster.opening, hlistener]
    rfl
  have hsize := worker_size c i (-1)
  have hunpack := unpack_query (a := ⟨.worker (c.worker i), -1⟩) (by omega) r.resources
  rw [if_pos hroot.rank] at hunpack
  have hnodup : (order ++ [i]).Nodup :=
    hroot.nodup.append (List.nodup_singleton i) (List.disjoint_singleton.mpr horder)
  have haddress : c.addressOf (order ++ [i]) (order.length + 1) =
      some ⟨.worker (c.worker i), r.resources.nextRank⟩ := by
    rw [Cluster.addressOf_last, Cluster.reported_worker hlistener, hroot.nextRank]
  obtain ⟨hright, hget⟩ := (hroot.right.concat i).emplace hnodup hroot.nextRank haddress rfl
  have hkept : ∀ rank a, r.resources.listenerAddresses.get rank = some a →
      (r.resources.listenerAddresses.emplace r.resources.nextRank
        ⟨.worker (c.worker i), r.resources.nextRank⟩ rfl).get rank = some a :=
    fun _ _ hold => AddressMap.get_emplace_of_some hold
  simp only [exchangeStep]
  rw [hnext]
  dsimp only
  rw [addressMessage, hunpack]
  refine ⟨order ++ [i], ?_, .unconnected ⟨h.down, h.endpoints, h.resources, h.entered, h.returned,
    .delayed order.length hlistener hphase hrequested ?_ List.getElem?_concat_length ?_
    hendpoints⟩, fun j hj => ?_⟩
  · refine ⟨hroot.rank, ?_, hnodup, ?_, fun e he => ?_, fun rank hrank => ?_, hright,
      hkept _ _ hroot.root, hroot.started, hroot.left,
      hroot.distributed, hroot.entered⟩
    · dsimp only
      rw [hroot.nextRank, List.length_append]
      exact ofNat_succ _
    · dsimp only
      rw [← List.append_assoc, List.length_append, List.length_singleton, List.range_succ,
        List.map_append, hroot.nextRank]
      exact hroot.ranks.append_right _
    · obtain ⟨k, hk, hi⟩ := hroot.endpoints e he
      obtain ⟨hlt, -⟩ := List.getElem?_eq_some_iff.mp hi
      exact ⟨k, hk, (List.getElem?_append_left hlt).trans hi⟩
    · rcases List.mem_append.mp hrank with hrank | hrank
      · obtain ⟨k, j, hk, hj, hold⟩ := hroot.delayed rank hrank
        obtain ⟨hlt, -⟩ := List.getElem?_eq_some_iff.mp hj
        exact ⟨k, j, hk, (List.getElem?_append_left hlt).trans hj,
          hkept _ _ hold⟩
      · rw [List.mem_singleton.mp hrank]
        exact ⟨order.length, i, hroot.nextRank, List.getElem?_concat_length, hget _ rfl⟩
  · dsimp only
    rw [hup]
    rfl
  · rw [← hroot.nextRank]
    exact List.mem_append_right _ List.mem_cons_self
  · exact ⟨.inr ⟨i, hj.symm, rfl⟩, fun _ => Iff.rfl, fun _ _ => rfl, fun _ _ => rfl,
      fun _ _ => rfl, fun _ _ h => List.mem_append_left _ h, hkept⟩

/-- A message is handed over to the root before it has an endpoint to its sender. -/
theorem Unconnected.exchange_progress (h : Unconnected c order r i p) (hroot : RootInv c order r) :
    Keeps (Exchanged c order r i) (exchangeStep c i .progress r p) := by
  cases h.opening with
  | connecting hphase hrequested hup =>
      simp only [exchangeStep]
      rw [hup]
      exact rfl
  | requested hp hlistener hphase hrequested hup =>
      simp only [exchangeStep]
      rw [hup]
      exact rfl
  | queried hlistener hphase hrequested hup horder hendpoints =>
      exact h.query hroot hlistener hphase hrequested hup horder hendpoints
  | delayed k hlistener hphase hrequested hup =>
      simp only [exchangeStep]
      rw [hup, Cluster.opening, hlistener]
      exact rfl

/-- A client with a processed message. -/
theorem Connected.process (h : Connected c order r i p k) {message : ActiveMessage Bytes Stamp}
    (hnext : p.up.next? = some message)
    (hregistered : r.resources.listenerAddresses.get (.ofNat (k + 1)) =
      some (c.reported i (.ofNat (k + 1)))) :
    Connected c order r i { p with up := p.up.process } k :=
  ⟨h.endpoint, h.assigned, h.requested, h.phase, h.up.process hnext, h.down, h.joined, h.waiting,
    h.entered, h.leads, h.rootEndpoint, h.selfEndpoint, fun _ => hregistered⟩

/-- An empty message is handed over. -/
theorem Connected.process_plain (h : Connected c order r i p k) (hroot : RootInv c order r)
    {stamps : List Stamp} {t : Nat}
    (hnext : p.up.next? = (stamps.map ActiveMessage.plain)[t]?)
    (hregistered : r.resources.listenerAddresses.get (.ofNat (k + 1)) =
      some (c.reported i (.ofNat (k + 1)))) :
    Keeps (Exchanged c order r i) (exchangeStep c i .progress r p) := by
  simp only [exchangeStep]
  cases hmessage : p.up.next? with
  | none => exact rfl
  | some message =>
      rw [hmessage, List.getElem?_map] at hnext
      obtain ⟨stamp, -, hstamp⟩ := Option.map_eq_some_iff.mp hnext.symm
      rw [← hstamp]
      exact ⟨order, hroot, .connected k (h.process hmessage hregistered),
        fun j _ => Kept.of_addresses fun _ _ h => h⟩

/-- RegisterListenerAddress is handed over. -/
theorem Connected.register (h : Connected c order r i p k) (hroot : RootInv c order r)
    (hnext : p.up.next? = some (.control (addressMessage .registerListenerAddress
      (c.reported i (.ofNat (k + 1)))))) :
    Keeps (Exchanged c order r i) (exchangeStep c i .progress r p) := by
  have hsize := c.reported_size i (.ofNat (k + 1))
  have hunpack := unpack_register (a := c.reported i (.ofNat (k + 1))) (by omega) r.resources
  have haddress : c.addressOf order (k + 1) = some (c.reported i (.ofNat (k + 1))) := by
    rw [Cluster.addressOf, h.assigned]
    rfl
  obtain ⟨hright, hget⟩ := hroot.right.emplace hroot.nodup (c.reported_rank i _) haddress rfl
  have hkept : ∀ rank a, r.resources.listenerAddresses.get rank = some a →
      (r.resources.listenerAddresses.emplace (c.reported i (.ofNat (k + 1))).rank
        (c.reported i (.ofNat (k + 1))) rfl).get rank = some a :=
    fun _ _ hold => AddressMap.get_emplace_of_some hold
  simp only [exchangeStep]
  rw [hnext]
  dsimp only
  rw [addressMessage, hunpack]
  refine ⟨order, ⟨hroot.rank, hroot.nextRank, hroot.nodup, hroot.ranks, hroot.endpoints,
    fun rank hrank => ?_, hright, hkept _ _ hroot.root, hroot.started, hroot.left,
    hroot.distributed, hroot.entered⟩, .connected k ?_, fun j _ => Kept.of_addresses hkept⟩
  · obtain ⟨k, j, hk, hj, hold⟩ := hroot.delayed rank hrank
    exact ⟨k, j, hk, hj, hkept _ _ hold⟩
  · exact (h.kept (Kept.of_addresses hkept)).process hnext
      (hget _ (c.reported_rank i _).symm)

/-- A message of a connected client is handed over: its address, or an empty one. -/
theorem Connected.exchange_progress (h : Connected c order r i p k) (hroot : RootInv c order r) :
    Keeps (Exchanged c order r i) (exchangeStep c i .progress r p) := by
  have hnext : p.up.next? = (c.opening i (.ofNat (k + 1)) p.client.phase ++
      (replyStamps p.client.replies).map .plain)[p.up.processed]? := by
    rw [ActiveLink.next?, h.up.sent]
  cases hlistener : c.listener i with
  | none =>
      have hprocessed := h.up.queried hlistener
      rw [Cluster.opening, hlistener, List.getElem?_append_right hprocessed] at hnext
      exact h.process_plain hroot hnext (h.registered (.inl hlistener))
  | some hp =>
      rw [Cluster.opening, hlistener] at hnext
      dsimp only at hnext
      by_cases hphase : p.client.phase = .waitingRank
      · have hreplies : p.client.replies = 0 := by
          rw [Client.replies, hphase, (h.waiting hphase).1]
        rw [if_pos hphase, hreplies] at hnext
        simp only [exchangeStep]
        rw [hnext]
        exact rfl
      · rw [if_neg hphase] at hnext
        rcases Nat.eq_zero_or_pos p.up.processed with hzero | hpos
        · rw [hzero] at hnext
          exact h.register hroot hnext
        · rw [List.getElem?_append_right hpos] at hnext
          exact h.process_plain hroot hnext (h.registered (.inr hpos))

/-! ## Barriers -/

/-- The client that an endpoint leads to is connected. -/
theorem RootInv.connected_of_endpoint (hroot : RootInv c order r) (h : PeerInv c order r i p)
    (he : (rank, i) ∈ r.endpoints) : ∃ k, rank = .ofNat (k + 1) ∧ Connected c order r i p k := by
  cases h with
  | unconnected h => exact absurd he (h.endpoints rank)
  | connected k h =>
      obtain ⟨k', -, hrank, hk'⟩ := hroot.rank_of_endpoint he
      obtain rfl := index_eq hroot.nodup h.assigned hk'
      exact ⟨k, hrank, h⟩

/-- A turn of a loop of `barrier` changes a link of the client. -/
theorem Connected.turn (h : Connected c order r i p k) {phase : RootPhase m} {up down : Link}
    (hup : UpLink c i k p.client.phase p.client.replies
      (Root.replies { r with phase } (.ofNat (k + 1), i)) up)
    (hdown : DownLink c order i k (Root.calls { r with phase } (.ofNat (k + 1), i))
      (Root.announced { r with phase } (.ofNat (k + 1), i)) p.client.calls p.client.resources down)
    (hupward : up.processed = p.up.processed) (hdownward : down.processed = p.down.processed) :
    Connected c order { r with phase } i { p with up, down } k := by
  refine ⟨h.endpoint, h.assigned, h.requested, h.phase, hup, hdown, ?_, h.waiting, h.entered,
    h.leads, h.rootEndpoint, h.selfEndpoint, ?_⟩
  · dsimp only
    rw [hdownward]
    exact h.joined
  · dsimp only
    rw [hupward]
    exact h.registered

theorem erase_subset_others (hroot : RootInv c order r) {left : Finset (Int32 × Fin m)}
    (hleft : r.left = left) (e : Int32 × Fin m) : left.erase e ⊆ r.others :=
  (Finset.erase_subset e left).trans (hleft ▸ hroot.left)

theorem mem_erase_iff {j : Fin m} (hj : j ≠ i) {left : Finset (Int32 × Fin m)} (q : Int32) :
    (q, j) ∈ left.erase (rank, i) ↔ (q, j) ∈ left := by
  refine Finset.mem_erase.trans (and_iff_right ?_)
  exact fun heq => hj (Prod.mk.inj heq).2

theorem Announces.announced_or {n : Nat} {announced : Bool}
    {sent : List (ActiveMessage Bytes Stamp)} (h : Announces c order k n announced sent) :
    announced = true ∨ n ≤ 1 := by
  cases h with
  | early hle => exact .inr hle
  | late => exact .inl rfl

/-- A client is called. -/
theorem RootInv.send_call (hroot : RootInv c order r) (h : PeerInv c order r i p)
    {left : Finset (Int32 × Fin m)} (hphase : r.phase = .calling left)
    (hmem : (rank, i) ∈ left) : Keeps (Exchanged c order r i) (r.send i rank p) := by
  have hleft : r.left = left := by rw [Root.left, hphase]
  have hentered := hroot.entered
  have hdistributed := hroot.distributed
  simp only [Root.inside, Root.Distributes, hphase] at hentered hdistributed
  obtain ⟨k, rfl, hc⟩ := hroot.connected_of_endpoint h
    (hroot.mem_others_iff.mp (hroot.left (hleft ▸ hmem)))
  have hup := hc.up
  have hdown := hc.down
  simp only [Root.replies, Root.calls, Root.announced, hphase, if_pos hmem, Nat.add_zero]
    at hup hdown
  have hstamp : Stamp.call r.entered = callStamp (2 * r.returned) := by
    rw [callStamp_even, hentered]
  have hsent := hdown.send (hdown.sent.send_plain (by
    rcases hdown.sent.announced_or with hannounced | hle
    · exact .inl hannounced
    · exact .inr (by omega)))
  simp only [Root.send, hphase, if_pos hmem, hstamp]
  refine ⟨order, hroot.of_phase (fun _ => hroot.started
    (.inr (by simp [hphase]))) (erase_subset_others hroot hleft _) ?_ hentered,
    .connected k (hc.turn ?_ ?_ rfl rfl), fun j hj => ?_⟩
  · simpa [Root.Distributes] using hdistributed
  · simpa only [Root.replies] using hup
  · simpa only [Root.calls, Root.announced, Finset.notMem_erase, if_false] using hsent
  · refine ⟨.inl rfl, fun _ => Iff.rfl, fun q _ => ?_, fun q _ => ?_, fun q _ => ?_,
      fun _ _ h => h, fun _ _ h => h⟩
    · simp only [Root.calls, hphase, mem_erase_iff hj]
    · simp only [Root.replies, hphase]
    · simp only [Root.announced, hphase]

/-- A client is released. -/
theorem RootInv.send_release (hroot : RootInv c order r) (h : PeerInv c order r i p)
    {left : Finset (Int32 × Fin m)} (hphase : r.phase = .releasing left)
    (hmem : (rank, i) ∈ left) : Keeps (Exchanged c order r i) (r.send i rank p) := by
  have hleft : r.left = left := by rw [Root.left, hphase]
  have hentered := hroot.entered
  have hdistributed : r.distributed = true := hroot.distributed.mpr (.inr (.inr ⟨left, hphase⟩))
  simp only [Root.inside, hphase] at hentered
  obtain ⟨k, rfl, hc⟩ := hroot.connected_of_endpoint h
    (hroot.mem_others_iff.mp (hroot.left (hleft ▸ hmem)))
  have hup := hc.up
  have hdown := hc.down
  simp only [Root.replies, Root.calls, Root.announced, hphase, if_pos hmem, Nat.add_zero]
    at hup hdown
  have hstamp : Stamp.release r.entered = callStamp (2 * r.returned + 1) := by
    rw [callStamp_odd, hentered]
  have hsent := hdown.send (hdown.sent.send_plain (.inl hdistributed))
  simp only [Root.send, hphase, if_pos hmem, hstamp]
  refine ⟨order, hroot.of_phase (fun _ => hroot.started
    (.inr (by simp [hphase]))) (erase_subset_others hroot hleft _) ?_ hentered,
    .connected k (hc.turn ?_ ?_ rfl rfl), fun j hj => ?_⟩
  · simp [Root.Distributes, hdistributed]
  · simpa only [Root.replies] using hup
  · simpa only [Root.calls, Root.announced, Finset.notMem_erase, if_false] using hsent
  · refine ⟨.inl rfl, fun _ => Iff.rfl, fun q _ => ?_, fun q _ => ?_, fun q _ => ?_,
      fun _ _ h => h, fun _ _ h => h⟩
    · simp only [Root.calls, hphase, mem_erase_iff hj]
    · simp only [Root.replies, hphase]
    · simp only [Root.announced, hphase]

/-- The addresses are sent to a client. -/
theorem RootInv.send_addresses (hroot : RootInv c order r) (h : PeerInv c order r i p)
    {left : Finset (Int32 × Fin m)} (hphase : r.phase = .distributing left)
    (hmem : (rank, i) ∈ left) (hcomplete : c.Complete order r.resources.listenerAddresses) :
    Keeps (Exchanged c order r i) (r.send i rank p) := by
  have hleft : r.left = left := by rw [Root.left, hphase]
  have hentered := hroot.entered
  have hdistributed : r.distributed = true := hroot.distributed.mpr (.inr (.inl ⟨left, hphase⟩))
  simp only [Root.inside, hphase] at hentered
  obtain ⟨k, rfl, hc⟩ := hroot.connected_of_endpoint h
    (hroot.mem_others_iff.mp (hroot.left (hleft ▸ hmem)))
  have hup := hc.up
  have hdown := hc.down
  simp only [Root.replies, Root.calls, Root.announced, hphase, hmem, not_true, decide_false]
    at hup hdown
  have hzero : r.returned = 0 := by
    rcases hdown.sent.announced_or with hannounced | hle
    · cases hannounced
    · omega
  have hone : 2 * r.returned + 1 = 1 := by rw [hzero]
  rw [hone] at hdown
  have hsent := hdown.send (hdown.sent.send_addresses hroot.right hcomplete)
  simp only [Root.send, hphase, if_pos hmem]
  rw [hroot.right.pack hroot.nodup]
  refine ⟨order, hroot.of_phase (fun _ => hroot.started
    (.inr (by simp [hphase]))) (erase_subset_others hroot hleft _) ?_ hentered,
    .connected k (hc.turn ?_ ?_ rfl rfl), fun j hj => ?_⟩
  · simp [Root.Distributes, hdistributed]
  · simpa only [Root.replies] using hup
  · simpa only [Root.calls, Root.announced, Finset.notMem_erase, not_false_eq_true, decide_true,
      hone] using hsent
  · refine ⟨.inl rfl, fun _ => Iff.rfl, fun q _ => ?_, fun q _ => ?_, fun q _ => ?_,
      fun _ _ h => h, fun _ _ h => h⟩
    · simp only [Root.calls, hphase]
    · simp only [Root.replies, hphase]
    · simp only [Root.announced, hphase, mem_erase_iff hj]

/-- The reply of a client is received. -/
theorem RootInv.receive (hroot : RootInv c order r) (h : PeerInv c order r i p) (rank : Int32) :
    Keeps (Exchanged c order r i) (r.receive i rank p) := by
  cases hphase : r.phase with
  | collecting left =>
      simp only [Root.receive, hphase]
      split
      · next hready =>
          obtain ⟨hmem, hmatched⟩ := hready
          obtain ⟨stamp, hstamp⟩ := Option.isSome_iff_exists.mp hmatched
          have hleft : r.left = left := by rw [Root.left, hphase]
          have hentered := hroot.entered
          have hdistributed := hroot.distributed
          simp only [Root.inside, Root.Distributes, hphase] at hentered hdistributed
          obtain ⟨k, rfl, hc⟩ := hroot.connected_of_endpoint h
            (hroot.mem_others_iff.mp (hroot.left (hleft ▸ hmem)))
          have hup := hc.up
          have hdown := hc.down
          simp only [Root.replies, Root.calls, Root.announced, hphase, if_pos hmem, Nat.add_zero]
            at hup hdown
          refine ⟨order, hroot.of_phase (fun _ => hroot.started
            (.inr (by simp [hphase]))) (erase_subset_others hroot hleft _) ?_
            hentered, .connected k (hc.turn ?_ ?_ rfl rfl), fun j hj => ?_⟩
          · simpa [Root.Distributes] using hdistributed
          · simpa only [Root.replies, Finset.notMem_erase, if_false] using hup.receive hstamp
          · simpa only [Root.calls, Root.announced] using hdown
          · refine ⟨.inl rfl, fun _ => Iff.rfl, fun q _ => ?_, fun q _ => ?_, fun q _ => ?_,
              fun _ _ h => h, fun _ _ h => h⟩
            · simp only [Root.calls, hphase]
            · simp only [Root.replies, hphase, mem_erase_iff hj]
            · simp only [Root.announced, hphase]
      · exact rfl
  | _ => simp only [Root.receive, hphase]; exact rfl

/-- The steps of the root with a client. -/
theorem RootInv.exchange_step (hroot : RootInv c order r) (h : PeerInv c order r i p)
    (hcomplete : ∀ left, r.phase = .distributing left →
      c.Complete order r.resources.listenerAddresses) (a : Exchange) :
    Keeps (Exchanged c order r i) (exchangeStep c i a r p) := by
  cases a with
  | accept =>
      cases h with
      | unconnected h => exact h.accept hroot
      | connected k h =>
          simp only [exchangeStep]
          rw [Root.listenerCallback, h.requested]
          exact rfl
  | progress =>
      cases h with
      | unconnected h => exact h.exchange_progress hroot
      | connected k h => exact h.exchange_progress hroot
  | connectBack rank => exact hroot.connect_back h rank
  | send rank =>
      simp only [exchangeStep]
      cases hphase : r.phase with
      | calling left =>
          by_cases hmem : (rank, i) ∈ left
          · exact hroot.send_call h hphase hmem
          · simp only [Root.send, hphase, if_neg hmem]
            exact rfl
      | distributing left =>
          by_cases hmem : (rank, i) ∈ left
          · exact hroot.send_addresses h hphase hmem (hcomplete left hphase)
          · simp only [Root.send, hphase, if_neg hmem]
            exact rfl
      | releasing left =>
          by_cases hmem : (rank, i) ∈ left
          · exact hroot.send_release h hphase hmem
          · simp only [Root.send, hphase, if_neg hmem]
            exact rfl
      | _ => simp only [Root.send, hphase]; exact rfl
  | receive rank => exact hroot.receive h rank

end Rapidsmpf.Ucxx
