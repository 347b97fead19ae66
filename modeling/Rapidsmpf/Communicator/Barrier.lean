import Rapidsmpf.Communicator.Exchanges

/-!
# The barrier of the UCXX communicator

In every run, whatever the order in which the clients connect, and the mixture of the two ways to
connect: no process returns from a barrier that another one has not entered, the empty messages of a
barrier are received in that barrier, and a process that has returned from its first barrier has the
listener addresses of all others. No step ends with an exception.
-/

namespace Rapidsmpf.Ucxx

open LittleEndian Codec Fallible Protocol

variable {m : Nat} {c : Cluster m} {order : List (Fin m)} {s : State m} {i j : Fin m}

/-! ## Runs -/

/-- A client whose reply was received has reported its address. -/
theorem Connected.reported {k : Nat} (hi : Connected c order s.root i (s.peers i) k)
    (hreplies : 0 < s.root.replies (.ofNat (k + 1), i)) :
    s.root.resources.listenerAddresses.get (.ofNat (k + 1)) =
      some (c.reported i (.ofNat (k + 1))) := by
  have hphase : (s.peers i).client.phase ≠ .waitingRank := by
    intro hwaiting
    have hle := hi.up.received_le
    rw [Client.replies, hwaiting, (hi.waiting hwaiting).1] at hle
    dsimp only at hle
    omega
  exact hi.registered (.inr (hi.up.processed_of_received hreplies hphase))

/-- The root has the addresses of all ranks when it has a reply of every client. -/
theorem Inv.complete (h : Inv c order s) (hstarted : s.root.Started)
    (hreplies : ∀ e, 0 < s.root.replies e) :
    c.Complete order s.root.resources.listenerAddresses := by
  intro k hk
  cases k with
  | zero => exact ⟨_, rfl, h.root.root⟩
  | succ k =>
      have hlength := h.root.started hstarted
      have hsum := h.root.length_eq
      have hlt : k < order.length := by omega
      have hassigned : order[k]? = some order[k] := List.getElem?_eq_getElem hlt
      cases h.peers order[k] with
      | unconnected hi => exact absurd hstarted (h.root.not_started hi.endpoints)
      | connected k' hi =>
          obtain rfl := index_eq h.root.nodup hassigned hi.assigned
          refine ⟨c.reported order[k] (.ofNat (k + 1)), ?_, hi.reported (hreplies _)⟩
          rw [Cluster.addressOf, hassigned]
          rfl

theorem Inv.complete_distributing (h : Inv c order s) {left : Finset (Int32 × Fin m)}
    (hphase : s.root.phase = .distributing left) :
    c.Complete order s.root.resources.listenerAddresses := by
  refine h.complete (.inr (by simp [hphase])) fun e => ?_
  rw [Root.replies, hphase]
  exact Nat.succ_pos _

theorem Inv.start (c : Cluster m) : Inv c [] (.start c) where
  root := {
    rank := rfl
    nextRank := rfl
    nodup := List.nodup_nil
    ranks := List.Perm.refl []
    endpoints := fun e he => absurd he List.not_mem_nil
    delayed := fun rank hrank => absurd hrank List.not_mem_nil
    right := fun rank x hx => by
      have hx : (SharedResources.start 0 c.rootWorker).listenerAddresses.get rank = some x := hx
      rw [get_start] at hx
      split at hx
      · next hrank => exact ⟨0, hrank, hx⟩
      · cases hx
    root := by
      show (SharedResources.start 0 c.rootWorker).listenerAddresses.get 0 = _
      rw [get_start, if_pos rfl]
    started := by
      rintro (hpos | ⟨hne, -⟩)
      · exact absurd hpos (Nat.lt_irrefl 0)
      · exact absurd rfl hne
    left := Finset.empty_subset _
    distributed := by simp [Root.Distributes, State.start]
    entered := rfl }
  peers i := .unconnected ⟨rfl, fun _ => List.not_mem_nil, rfl, rfl, rfl,
    .connecting rfl rfl rfl List.not_mem_nil rfl⟩

/-- What every run keeps is kept by each step, and no step ends with an exception. -/
theorem Inv.keeps (h : Inv c order s) (l : Label m) :
    Keeps (fun s' => ∃ order', Inv c order' s') (step c l s) := by
  cases l with
  | client i a =>
      refine ((h.peers i).client_step h.root a).bind fun p hp => ?_
      refine ⟨order, h.root, fun j => ?_⟩
      by_cases hj : j = i
      · subst hj
        simpa only [Function.update_self] using hp
      · simpa only [Function.update_of_ne hj] using h.peers j
  | exchange i a =>
      refine (h.root.exchange_step (h.peers i) (fun left hphase => h.complete_distributing hphase)
        a).bind fun x hx => ?_
      obtain ⟨order', hroot, hp, hkept⟩ := hx
      refine ⟨order', hroot, fun j => ?_⟩
      by_cases hj : j = i
      · subst hj
        simpa only [Function.update_self] using hp
      · simpa only [Function.update_of_ne hj] using (h.peers j).kept (hkept j hj)
  | root a =>
      refine (h.root.root_step a).bind fun r hr => ?_
      exact ⟨order, hr.1, fun j => (h.peers j).kept (hr.2 j)⟩

theorem reachable_inv (hs : (system c).Reachable s) : ∃ order, Inv c order s := by
  refine hs.invariant (I := fun s => ∃ order, Inv c order s) (fun s hs => ?_)
    fun s l s' hi hstep => ?_
  · obtain rfl : s = .start c := hs
    exact ⟨[], .start c⟩
  · obtain ⟨order, hi⟩ := hi
    have hstep : step c l s = .ok s' := hstep
    have hkeeps := hi.keeps l
    rwa [hstep] at hkeeps

/-! ## Counting barriers -/

/-- A process: the root, or a client. -/
abbrev Process (m : Nat) : Type := Option (Fin m)

namespace State

/-- The barriers that a process has entered. -/
def entered (s : State m) : Process m → Nat
  | none => s.root.entered
  | some i => (s.peers i).client.entered

/-- The barriers that a process has returned from. -/
def returned (s : State m) : Process m → Nat
  | none => s.root.returned
  | some i => (s.peers i).client.returned

/-- The rank of a client. -/
def rank (s : State m) (i : Fin m) : Int32 := (s.peers i).client.resources.rank

end State

/-- A client has answered no more barriers than it has entered. -/
theorem Connected.replies_le {k : Nat} (hi : Connected c order s.root i (s.peers i) k) :
    s.root.replies (.ofNat (k + 1), i) ≤ s.entered (some i) := by
  have hle := hi.up.received_le
  have hentered := hi.entered
  show _ ≤ (s.peers i).client.entered
  rw [hentered]
  refine hle.trans ?_
  rw [Client.replies, Client.inside]
  split <;> simp_all

/-- The root calls for the next barrier when it has the replies of all clients. -/
theorem calls_le {r : Root m} (hentered : r.entered = r.returned + r.inside)
    {e : Int32 × Fin m} {b : Nat} (hb : 2 * b ≤ r.calls e) :
    b ≤ r.entered ∧ ∀ e', b ≤ r.replies e' := by
  rw [hentered]
  cases hphase : r.phase with
  | idle =>
      simp only [Root.calls, Root.replies, Root.inside, hphase] at hb ⊢
      exact ⟨by omega, fun _ => by omega⟩
  | waitingEndpoints =>
      simp only [Root.calls, Root.replies, Root.inside, hphase] at hb ⊢
      exact ⟨by omega, fun _ => by omega⟩
  | calling left =>
      simp only [Root.calls, Root.replies, Root.inside, hphase] at hb ⊢
      split at hb <;> exact ⟨by omega, fun _ => by omega⟩
  | collecting left =>
      simp only [Root.calls, Root.replies, Root.inside, hphase] at hb ⊢
      exact ⟨by omega, fun _ => by omega⟩
  | distributing left =>
      simp only [Root.calls, Root.replies, Root.inside, hphase] at hb ⊢
      exact ⟨by omega, fun _ => by omega⟩
  | releasing left =>
      simp only [Root.calls, Root.replies, Root.inside, hphase] at hb ⊢
      split at hb <;> exact ⟨by omega, fun _ => by omega⟩

/-- What the root has received from every client, every client has entered. -/
theorem Inv.le_entered (h : Inv c order s) {b : Nat} (hroot : b ≤ s.root.entered)
    (hreplies : ∀ e, b ≤ s.root.replies e) (q : Process m) : b ≤ s.entered q := by
  cases q with
  | none => exact hroot
  | some j =>
      cases h.peers j with
      | unconnected hj =>
          have hcounters := counters_of_not_started (h.root.not_started hj.endpoints)
            h.root.distributed (0, j)
          have hle := hreplies (0, j)
          omega
      | connected k hj => exact (hreplies _).trans hj.replies_le

/-- No process returns from a barrier that another one has not entered. -/
theorem Inv.returned_le_entered (h : Inv c order s) (p q : Process m) :
    s.returned p ≤ s.entered q := by
  cases p with
  | none =>
      refine h.le_entered ?_ (fun e => ?_) q
      · rw [h.root.entered]
        exact Nat.le_add_right _ _
      · show s.root.returned ≤ _
        rw [Root.replies]
        split <;> omega
  | some i =>
      show (s.peers i).client.returned ≤ _
      cases h.peers i with
      | unconnected hi =>
          rw [hi.returned]
          exact Nat.zero_le _
      | connected k hi =>
          have hcalls : 2 * (s.peers i).client.returned ≤ (s.peers i).client.calls := by
            rw [Client.calls]
            split <;> omega
          obtain ⟨hroot, hreplies⟩ := calls_le h.root.entered (hcalls.trans hi.down.received_le)
          exact h.le_entered hroot hreplies q

/-- No process returns from its k-th barrier before all have entered theirs, and an empty message is
received in the barrier that it was sent in. -/
structure Separates (s : State m) : Prop where
  returned_le : ∀ p q, s.returned p ≤ s.entered q
  call : ∀ i stamp, (s.peers i).client.phase = .awaitingCall →
    (s.peers i).down.matched? = some stamp → stamp = .call (s.peers i).client.entered
  release : ∀ i stamp, (s.peers i).client.phase = .awaitingRelease →
    (s.peers i).down.matched? = some stamp → stamp = .release (s.peers i).client.entered
  reply : ∀ left rank i stamp, s.root.phase = .collecting left → (rank, i) ∈ left →
    (s.peers i).up.matched? = some stamp → stamp = .reply s.root.entered

/-- The barrier of the communicator is a barrier. -/
theorem barrier_separates (hs : (system c).Reachable s) : Separates s := by
  obtain ⟨order, h⟩ := reachable_inv hs
  have hstamp : ∀ i stamp, (s.peers i).down.matched? = some stamp →
      (s.peers i).client.entered = (s.peers i).client.returned + (s.peers i).client.inside ∧
        stamp = callStamp (s.peers i).client.calls := by
    intro i stamp hmatched
    cases h.peers i with
    | unconnected hi =>
        rw [hi.down] at hmatched
        cases hmatched
    | connected k hi => exact ⟨hi.entered, (hi.down.stamp_eq hmatched).2⟩
  refine ⟨h.returned_le_entered, fun i stamp hphase hmatched => ?_,
    fun i stamp hphase hmatched => ?_, fun left rank i stamp hphase hmem hmatched => ?_⟩
  · obtain ⟨hentered, rfl⟩ := hstamp i stamp hmatched
    rw [Client.inside, hphase] at hentered
    rw [Client.calls, hphase, hentered]
    exact callStamp_even _
  · obtain ⟨hentered, rfl⟩ := hstamp i stamp hmatched
    rw [Client.inside, hphase] at hentered
    rw [Client.calls, hphase, hentered]
    exact callStamp_odd _
  · have hleft : s.root.left = left := by rw [Root.left, hphase]
    have hentered := h.root.entered
    rw [Root.inside, hphase] at hentered
    obtain ⟨k, rfl, hi⟩ := h.root.connected_of_endpoint (h.peers i)
      (h.root.mem_others_iff.mp (h.root.left (hleft ▸ hmem)))
    obtain ⟨-, rfl⟩ := hi.up.stamp_eq hmatched
    rw [Root.replies, hphase, hentered]
    dsimp only
    rw [if_pos hmem]
    rfl

/-! ## Addresses -/

/-- Once a process has returned from a barrier, every client has its rank. -/
theorem Inv.ranked (h : Inv c order s) {p : Process m} (hp : 0 < s.returned p) (j : Fin m) :
    ∃ k, Connected c order s.root j (s.peers j) k ∧ s.rank j = .ofNat (k + 1) := by
  have hentered : 0 < (s.peers j).client.entered :=
    Nat.lt_of_lt_of_le hp (h.returned_le_entered p (some j))
  cases h.peers j with
  | unconnected hj => exact absurd hj.entered hentered.ne'
  | connected k hj =>
      have hphase : (s.peers j).client.phase ≠ .waitingRank := by
        intro hwaiting
        have hsum := hj.entered
        rw [(hj.waiting hwaiting).1, Client.inside, hwaiting] at hsum
        exact absurd hsum hentered.ne'
      exact ⟨k, hj, (hj.down.learned h.root.nodup).rank (hj.joined hphase)⟩

namespace State

/-- The resources of a process. -/
def resources (s : State m) : Process m → SharedResources
  | none => s.root.resources
  | some i => (s.peers i).client.resources

end State

/-- The addresses of a process that has returned from its first barrier. -/
theorem Inv.addresses (h : Inv c order s) {p : Process m} (hp : 0 < s.returned p) {k : Nat}
    (hk : k ≤ m) : ∃ a, c.addressOf order k = some a ∧
      ((∀ i, p = some i → s.rank i ≠ .ofNat k) →
        (s.resources p).listenerAddresses.get (.ofNat k) = some a) := by
  cases p with
  | none =>
      have hp : 0 < s.root.returned := hp
      have hcomplete := h.complete (.inl hp) fun e => by
        rw [Root.replies]
        split <;> omega
      obtain ⟨a, haddress, hget⟩ := hcomplete k hk
      exact ⟨a, haddress, fun _ => hget⟩
  | some i =>
      obtain ⟨k', hi, hrank⟩ := h.ranked hp i
      obtain ⟨a, haddress, hget⟩ := hi.addresses h.root hp hk
      refine ⟨a, haddress, fun hne => ?_⟩
      have hne := hne i rfl
      rw [hrank] at hne
      rw [if_neg hne.symm] at hget
      exact hget

/-- The ranks of the clients are different. -/
theorem Inv.rank_injective (h : Inv c order s) {p : Process m} (hp : 0 < s.returned p) :
    Function.Injective s.rank := by
  intro i j heq
  obtain ⟨k, hi, hrank⟩ := h.ranked hp i
  obtain ⟨k', hj, hrank'⟩ := h.ranked hp j
  rw [hrank, hrank'] at heq
  obtain rfl := c.rank_inj h.root.nodup hi.assigned hj.assigned heq
  exact Option.some.inj (hi.assigned.symm.trans hj.assigned)

/-- An address belongs to the process that has the rank. -/
def State.Owns (c : Cluster m) (s : State m) (rank : Int32) (address : RemoteAddress) : Prop :=
  (rank = 0 ∧ (address = .worker c.rootWorker ∨
    address = .hostPort c.rootHostPort.1 c.rootHostPort.2)) ∨
  ∃ j, rank = s.rank j ∧
    (address = .worker (c.worker j) ∨ address = (c.reported j rank).address)

theorem Inv.rank_eq (h : Inv c order s) {p : Process m} (hp : 0 < s.returned p) {k : Nat}
    (hk : order[k]? = some j) : s.rank j = .ofNat (k + 1) := by
  obtain ⟨k', hj, hrank⟩ := h.ranked hp j
  obtain rfl := index_eq h.root.nodup hk hj.assigned
  exact hrank

theorem Inv.owns (h : Inv c order s) {p : Process m} (hp : 0 < s.returned p)
    {e : Int32 × RemoteAddress} (he : Leads c order i e) : s.Owns c e.1 e.2 := by
  cases he with
  | root =>
      refine .inl ⟨rfl, ?_⟩
      rw [Cluster.rootAddress]
      split
      · exact .inr rfl
      · exact .inl rfl
  | self hk => exact .inr ⟨i, (h.rank_eq hp hk).symm, .inl rfl⟩
  | @other k a haddress =>
      cases k with
      | zero =>
          cases haddress
          exact .inl ⟨rfl, .inl rfl⟩
      | succ k =>
          obtain ⟨j, hj, rfl⟩ := Option.map_eq_some_iff.mp haddress
          exact .inr ⟨j, (h.rank_eq hp hj).symm, .inr rfl⟩

theorem get_endpoint_ne_blocked (client : Client) (rank : Int32) :
    client.getEndpoint rank ≠ .error .blocked := by
  intro herror
  rw [Client.getEndpoint] at herror
  split at herror
  · cases herror
  · split at herror
    · cases herror
    · rw [registerEndpoint] at herror
      split at herror <;> cases herror

/-- `get_endpoint` has the endpoint. -/
theorem lookup_get_endpoint {client client' : Client} {rank : Int32}
    (h : client.getEndpoint rank = .ok client') :
    ∃ address, (rank, address) ∈ client'.endpoints := by
  rw [Client.getEndpoint] at h
  split at h
  · next address hlookup =>
      cases h
      obtain ⟨l, l', hsplit, -⟩ := List.lookup_eq_some_iff.mp hlookup
      exact ⟨address, hsplit ▸ List.mem_append_right _ List.mem_cons_self⟩
  · split at h
    · cases h
    · next a hget =>
        obtain ⟨endpoints, hregister, h⟩ := bind_eq_ok.mp h
        cases h
        rw [registerEndpoint] at hregister
        split at hregister
        · cases hregister
        · cases hregister
          exact ⟨a.address, List.mem_append_right _ List.mem_cons_self⟩

/-- `get_endpoint` of a client that has returned from its first barrier. -/
theorem Inv.get_endpoint (h : Inv c order s) (hreturned : 0 < (s.peers i).client.returned)
    (hphase : (s.peers i).client.phase = .idle) {k : Nat} (hk : k ≤ m) :
    ∃ s', step c (.client i (.getEndpoint (.ofNat k))) s = .ok s' ∧
      ∃ address, (.ofNat k, address) ∈ (s'.peers i).client.endpoints ∧
        s.Owns c (.ofNat k) address := by
  obtain ⟨k', hi, -⟩ := h.ranked (p := some i) hreturned i
  have hkeeps := hi.get_endpoint h.root hphase hreturned hk
  have hstep : clientStep c i (.getEndpoint (.ofNat k)) (s.peers i) =
      (s.peers i).client.getEndpoint (.ofNat k) >>= fun client =>
        pure { s.peers i with client } := by
    simp only [clientStep]
    exact if_pos ⟨hphase, hreturned, k, hk, rfl⟩
  cases hget : (s.peers i).client.getEndpoint (.ofNat k) with
  | error e =>
      rw [hget] at hkeeps
      obtain rfl : e = .blocked := hkeeps
      exact absurd hget (get_endpoint_ne_blocked _ _)
  | ok client =>
      rw [hget] at hkeeps hstep
      obtain ⟨address, haddress⟩ := lookup_get_endpoint hget
      refine ⟨{ s with peers := Function.update s.peers i { s.peers i with client } }, ?_, address,
        ?_, ?_⟩
      · rw [step, hstep]
        rfl
      · dsimp only
        rw [Function.update_self]
        exact haddress
      · have hpeer : PeerInv c order s.root i { s.peers i with client } := hkeeps
        cases hpeer with
        | unconnected hu => exact absurd hi.endpoint (hu.endpoints _)
        | connected k'' hc => exact h.owns (p := some i) hreturned (hc.leads _ haddress)

/-- No step ends with an exception, also none of `get_endpoint` after the first barrier. When a
process has returned from its first barrier, the clients have different ranks from 1 to `m`, and it
has the address that each of the others has reported, under its rank. Its `get_endpoint` of any rank
has an endpoint then, which leads to the process with that rank. -/
structure Discovers (c : Cluster m) (s : State m) : Prop where
  noException : ∀ l e, step c l s = .error e → e = .blocked
  ranks : ∀ p, 0 < s.returned p →
    Function.Injective s.rank ∧ ∀ j, ∃ k < m, s.rank j = .ofNat (k + 1)
  root : ∀ p, 0 < s.returned p →
    (s.resources p).listenerAddresses.get 0 = some ⟨.worker c.rootWorker, 0⟩
  addresses : ∀ p j, 0 < s.returned p → p ≠ some j →
    (s.resources p).listenerAddresses.get (s.rank j) = some (c.reported j (s.rank j))
  endpoint : ∀ i, 0 < (s.peers i).client.returned → (s.peers i).client.phase = .idle →
    ∀ k ≤ m, ∃ s', step c (.client i (.getEndpoint (.ofNat k))) s = .ok s' ∧
      ∃ address, (.ofNat k, address) ∈ (s'.peers i).client.endpoints ∧ s.Owns c (.ofNat k) address
  rootEndpoint : 0 < s.root.returned → ∀ j, (s.rank j, j) ∈ s.root.endpoints

/-- The first barrier completes the discovery of the addresses. -/
theorem barrier_discovers (hs : (system c).Reachable s) : Discovers c s := by
  obtain ⟨order, h⟩ := reachable_inv hs
  refine ⟨fun l e hstep => ?_, fun p hp => ⟨h.rank_injective hp, fun j => ?_⟩, fun p hp => ?_,
    fun p j hp hj => ?_, fun i hreturned hphase k hk => h.get_endpoint hreturned hphase hk,
    fun hreturned j => ?_⟩
  · have hkeeps := h.keeps l
    rwa [hstep] at hkeeps
  · obtain ⟨k, hj, hrank⟩ := h.ranked hp j
    obtain ⟨hlt, -⟩ := List.getElem?_eq_some_iff.mp hj.assigned
    exact ⟨k, Nat.lt_of_lt_of_le hlt (length_le_of_nodup h.root.nodup), hrank⟩
  · obtain ⟨a, haddress, hget⟩ := h.addresses hp (Nat.zero_le m)
    cases haddress
    refine hget fun i _ hrank => ?_
    obtain ⟨k, hi, hrank'⟩ := h.ranked hp i
    obtain ⟨hlt, -⟩ := List.getElem?_eq_some_iff.mp hi.assigned
    exact c.succ_ne_zero (Nat.lt_of_lt_of_le hlt (length_le_of_nodup h.root.nodup))
      (hrank'.symm.trans hrank)
  · obtain ⟨k, hc, hrank⟩ := h.ranked hp j
    obtain ⟨hlt, -⟩ := List.getElem?_eq_some_iff.mp hc.assigned
    obtain ⟨a, haddress, hget⟩ := h.addresses hp (k := k + 1)
      (Nat.lt_of_lt_of_le hlt (length_le_of_nodup h.root.nodup))
    rw [Cluster.addressOf, hc.assigned] at haddress
    cases haddress
    rw [hrank]
    refine hget fun i hi heq => hj ?_
    obtain rfl := h.rank_injective hp (heq.trans hrank.symm)
    exact hi
  · obtain ⟨k, hc, hrank⟩ := h.ranked (p := none) hreturned j
    rw [hrank]
    exact hc.endpoint

/-! ## Two clients -/

/-- A client that joins by the worker address of the root, and one by its host and port. -/
def pair : Cluster 2 where
  rootWorker := [0]
  rootHostPort := ([1], 80)
  worker i := [.ofNat i]
  listener i := if i.val = 1 then some ([4], 81) else none
  lt_max := by decide
  worker_injective := by decide
  rootWorker_lt := by decide
  worker_lt := by decide
  listener_lt := by decide

/-- `j` is accepted before `i`. The root and `i` return from their first barrier. -/
def firstBarrier (i j : Fin m) : List (Label m) :=
  [.client i .connect, .client j .connect, .root .enter, .exchange j .accept,
    .exchange i .progress, .exchange i (.connectBack 2), .client j .progress, .client j .finishInit,
    .exchange j .progress, .client i .progress, .client i .finishInit, .client i .enter,
    .client j .enter, .root .start, .exchange i (.send 2), .exchange j (.send 1), .root .advance,
    .client i .progress, .client i .receive, .client i .reply, .client j .progress,
    .client j .receive, .client j .reply, .exchange i .progress, .exchange i (.receive 2),
    .exchange j .progress, .exchange j (.receive 1), .root .advance, .exchange i (.send 2),
    .exchange j (.send 1), .root .advance, .exchange i (.send 2), .exchange j (.send 1),
    .root .advance, .client i .progress, .client i .progress, .client i .receive]

theorem run_reachable {ls : List (Label m)} (h : run (step c) ls (.start c) = .ok s) :
    (system c).Reachable s :=
  System.Reach.run (.init rfl) (fun _ _ _ _ hstep => ⟨trivial, hstep⟩) h

set_option maxRecDepth 4000 in
theorem barrier_separates_pair :
    ∃ s, (system pair).Reachable s ∧ s.returned (some 0) = 1 ∧ Separates s := by
  obtain ⟨s, hrun, hreturned⟩ : ∃ s, run (step pair) (firstBarrier 0 1) (.start pair) = .ok s ∧
      s.returned (some 0) = 1 := ⟨_, rfl, rfl⟩
  exact ⟨s, run_reachable hrun, hreturned, barrier_separates (run_reachable hrun)⟩

set_option maxRecDepth 4000 in
theorem barrier_discovers_pair :
    ∃ s, (system pair).Reachable s ∧ s.returned (some 0) = 1 ∧ Discovers pair s := by
  obtain ⟨s, hrun, hreturned⟩ : ∃ s, run (step pair) (firstBarrier 0 1) (.start pair) = .ok s ∧
      s.returned (some 0) = 1 := ⟨_, rfl, rfl⟩
  exact ⟨s, run_reachable hrun, hreturned, barrier_discovers (run_reachable hrun)⟩

end Rapidsmpf.Ucxx
