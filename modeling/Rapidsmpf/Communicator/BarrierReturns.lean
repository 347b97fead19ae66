import Rapidsmpf.Communicator.Barrier

/-!
# Every barrier of the UCXX communicator returns

A step is internal when it is no new call. Every internal step lowers a weight, in which a message
is paid for by the step that sends it, so no run of internal steps goes on forever. Where none can
be taken, every client has joined, and if all processes have entered the same number of barriers
then they have returned from all of them.
-/

namespace Rapidsmpf.Ucxx

open LittleEndian Codec Fallible Protocol

variable {m : Nat} {c : Cluster m} {order : List (Fin m)} {s s' : State m} {r r' : Root m}
  {i j : Fin m} {p p' : Peer}

/-- The steps but for new calls. -/
def Label.internal : Label m → Bool
  | .client _ .enter | .client _ (.getEndpoint _) | .root .enter => false
  | _ => true

/-! ## Weights -/

/-- The messages that have still to be handed over. -/
def pending (l : Link) : Nat := l.sent.length - l.processed

theorem pending_send (l : Link) (message : ActiveMessage Bytes Stamp) :
    pending (l.send message) ≤ pending l + 1 := by
  rw [pending, pending, ActiveLink.sent_send, ActiveLink.processed_send, List.length_append,
    List.length_singleton]
  omega

theorem pending_process {l : Link} {message : ActiveMessage Bytes Stamp}
    (hnext : l.next? = some message) : pending l.process + 1 = pending l := by
  obtain ⟨hlt, -⟩ := List.getElem?_eq_some_iff.mp hnext
  rw [pending, pending, ActiveLink.sent_process, ActiveLink.processed_process]
  omega

def ClientPhase.weight : ClientPhase → Nat
  | connecting => 10
  | waitingRank => 5
  | idle => 0
  | awaitingCall => 7
  | replying => 6
  | awaitingRelease => 1

def Peer.weight (p : Peer) : Nat :=
  p.client.phase.weight + (if p.requested then 2 else 0) + 4 * pending p.up + pending p.down

def RootPhase.weight (phase : RootPhase m) : Nat :=
  match phase with
  | idle => 0
  | waitingEndpoints => 7 * m + 5
  | calling left => 5 * m + 4 + 2 * left.card
  | collecting left => 4 * m + 3 + left.card
  | distributing left => 2 * m + 2 + 2 * left.card
  | releasing left => 1 + 2 * left.card

def Root.weight (r : Root m) : Nat := r.phase.weight + 2 * r.resources.delayed.length

def State.weight (s : State m) : Nat := s.root.weight + ∑ i, (s.peers i).weight

/-! ## Internal steps lower the weight -/

theorem connect_weight (h : p.connect c i = .ok p') (hphase : p.client.phase = .connecting) :
    p'.weight < p.weight := by
  obtain ⟨endpoints, -, h⟩ := bind_eq_ok.mp h
  cases hlistener : c.listener i with
  | some hp =>
      simp only [hlistener] at h
      cases pure_eq_ok.mp h
      simp only [Peer.weight, hphase, ClientPhase.weight]
      split <;> simp <;> omega
  | none =>
      simp only [hlistener] at h
      obtain ⟨packed, -, h⟩ := bind_eq_ok.mp h
      cases pure_eq_ok.mp h
      have hsend := pending_send p.up (.control packed.buffer)
      simp only [Peer.weight, hphase, ClientPhase.weight]
      omega

theorem finish_init_weight (h : p.finishInit c i = .ok p')
    (hphase : p.client.phase = .waitingRank) : p'.weight < p.weight := by
  obtain ⟨endpoints, -, h⟩ := bind_eq_ok.mp h
  cases hlistener : c.listener i with
  | none =>
      simp only [hlistener] at h
      cases pure_eq_ok.mp h
      simp only [Peer.weight, hphase, ClientPhase.weight]
      omega
  | some hp =>
      simp only [hlistener] at h
      obtain ⟨packed, -, h⟩ := bind_eq_ok.mp h
      cases pure_eq_ok.mp h
      have hsend := pending_send p.up (.control packed.buffer)
      simp only [Peer.weight, hphase, ClientPhase.weight]
      omega

/-- A message is handed over to a client. -/
theorem client_progress_weight (h : p.progress = .ok p') : p'.weight < p.weight := by
  rw [Peer.progress] at h
  cases hnext : p.down.next? with
  | none =>
      rw [hnext] at h
      cases h
  | some message =>
      have hpending := pending_process hnext
      rw [hnext] at h
      cases message with
      | plain stamp =>
          cases pure_eq_ok.mp h
          simp only [Peer.weight]
          omega
      | control buffer =>
          obtain ⟨resources, -, h⟩ := bind_eq_ok.mp h
          cases pure_eq_ok.mp h
          simp only [Peer.weight]
          omega

/-- A receive of a client is complete. -/
theorem client_receive_weight (h : p.receive = .ok p') : p'.weight < p.weight := by
  rw [Peer.receive] at h
  split at h
  · split at h
    · next hphase =>
        cases pure_eq_ok.mp h
        simp only [Peer.weight, hphase, ClientPhase.weight, pending, ActiveLink.sent_receive,
          ActiveLink.processed_receive]
        omega
    · next hphase =>
        cases pure_eq_ok.mp h
        simp only [Peer.weight, hphase, ClientPhase.weight, pending, ActiveLink.sent_receive,
          ActiveLink.processed_receive]
        omega
    · cases h
  · cases h

theorem client_step_weight {a : ClientAction} (h : clientStep c i a p = .ok p')
    (ha : (Label.client i a : Label m).internal = true) : p'.weight < p.weight := by
  cases a with
  | enter => cases ha
  | getEndpoint rank => cases ha
  | progress => exact client_progress_weight h
  | receive => exact client_receive_weight h
  | connect =>
      simp only [clientStep] at h
      split at h
      · next hphase => exact connect_weight h hphase
      · cases h
  | finishInit =>
      simp only [clientStep] at h
      split at h
      · next hready => exact finish_init_weight h hready.1
      · cases h
  | reply =>
      simp only [clientStep] at h
      split at h
      · next hphase =>
          cases pure_eq_ok.mp h
          have hsend := pending_send p.up (.plain (.reply p.client.entered))
          simp only [Peer.weight, hphase, ClientPhase.weight]
          omega
      · cases h

theorem assign_rank_weight {rank : Int32} (h : Root.assignRank i rank r p = .ok (r', p')) :
    r'.weight = r.weight ∧ p'.weight ≤ p.weight + 1 := by
  obtain ⟨r₁, hregister, h⟩ := bind_eq_ok.mp h
  obtain ⟨packed, -, h⟩ := bind_eq_ok.mp h
  cases pure_eq_ok.mp h
  have hsend := pending_send p.down (.control packed.buffer)
  rw [Root.registerEndpoint] at hregister
  split at hregister
  · cases hregister
  · obtain ⟨endpoints, -, hregister⟩ := bind_eq_ok.mp hregister
    cases pure_eq_ok.mp hregister
    refine ⟨rfl, ?_⟩
    simp only [Peer.weight]
    omega

theorem read_loop_delayed (n : Nat) {resources resources' : SharedResources} {data rest : Bytes}
    (h : readLoop decodeEntry n resources data = .ok (resources', rest)) :
    resources'.delayed = resources.delayed := by
  induction n generalizing resources data with
  | zero =>
      cases h
      rfl
  | succ n ih =>
      rw [readLoop] at h
      split at h
      · cases h
      · next s data' hentry =>
          obtain ⟨⟨packed, data''⟩, -, hentry⟩ := bind_eq_ok.mp hentry
          obtain ⟨a, -, hentry⟩ := bind_eq_ok.mp hentry
          cases pure_eq_ok.mp hentry
          show _ = (resources.registerListenerAddress a.rank a rfl).delayed
          exact ih h

/-- A control message makes at most one delayed callback. -/
theorem control_unpack_delayed {buffer : Bytes} {resources resources' : SharedResources}
    (h : controlUnpack buffer resources = .ok resources') :
    resources'.delayed.length ≤ resources.delayed.length + 1 := by
  obtain ⟨⟨control, data⟩, -, h⟩ := bind_eq_ok.mp h
  dsimp only at h
  split at h
  · obtain ⟨⟨rank, rest⟩, -, h⟩ := bind_eq_ok.mp h
    cases pure_eq_ok.mp h
    exact Nat.le_succ _
  · split at h
    · split at h
      · obtain ⟨⟨packed, rest⟩, -, h⟩ := bind_eq_ok.mp h
        obtain ⟨a, -, h⟩ := bind_eq_ok.mp h
        cases pure_eq_ok.mp h
        exact List.length_append.le
      · cases h
    · split at h
      · obtain ⟨⟨packed, rest⟩, -, h⟩ := bind_eq_ok.mp h
        obtain ⟨a, -, h⟩ := bind_eq_ok.mp h
        cases pure_eq_ok.mp h
        exact Nat.le_succ _
      · split at h
        · obtain ⟨⟨count, rest⟩, -, h⟩ := bind_eq_ok.mp h
          obtain ⟨⟨s, rest'⟩, hloop, h⟩ := bind_eq_ok.mp h
          cases pure_eq_ok.mp h
          rw [read_loop_delayed count hloop]
          exact Nat.le_succ _
        · cases pure_eq_ok.mp h
          exact Nat.le_succ _

/-- A message is handed over to the root. -/
theorem exchange_progress_weight (h : exchangeStep c i .progress r p = .ok (r', p')) :
    r'.weight + p'.weight < r.weight + p.weight := by
  simp only [exchangeStep] at h
  cases hnext : p.up.next? with
  | none =>
      rw [hnext] at h
      cases h
  | some message =>
      have hpending := pending_process hnext
      rw [hnext] at h
      cases message with
      | plain stamp =>
          cases pure_eq_ok.mp h
          simp only [Peer.weight]
          omega
      | control buffer =>
          obtain ⟨resources, hunpack, h⟩ := bind_eq_ok.mp h
          cases pure_eq_ok.mp h
          have hdelayed : resources.delayed.length ≤ r.resources.delayed.length + 1 := by
            cases hcontrol : controlUnpack buffer r.resources with
            | error e =>
                rw [hcontrol] at hunpack
                cases hunpack
            | ok resources =>
                rw [hcontrol] at hunpack
                cases hunpack
                exact control_unpack_delayed hcontrol
          simp only [Peer.weight, Root.weight]
          omega

theorem card_erase_lt {left : Finset (Int32 × Fin m)} {e : Int32 × Fin m} (he : e ∈ left) :
    (left.erase e).card + 1 = left.card := Finset.card_erase_add_one he

/-- A turn of a loop that sends. -/
theorem send_weight {rank : Int32} (h : r.send i rank p = .ok (r', p')) :
    r'.weight + p'.weight < r.weight + p.weight := by
  cases hphase : r.phase with
  | calling left =>
      simp only [Root.send, hphase] at h
      split at h
      · next hmem =>
          cases pure_eq_ok.mp h
          have hsend := pending_send p.down (.plain (.call r.entered))
          have hcard := card_erase_lt hmem
          simp only [Peer.weight, Root.weight, RootPhase.weight, hphase]
          omega
      · cases h
  | distributing left =>
      simp only [Root.send, hphase] at h
      split at h
      · next hmem =>
          obtain ⟨packed, -, h⟩ := bind_eq_ok.mp h
          cases pure_eq_ok.mp h
          have hsend := pending_send p.down (.control packed.buffer)
          have hcard := card_erase_lt hmem
          simp only [Peer.weight, Root.weight, RootPhase.weight, hphase]
          omega
      · cases h
  | releasing left =>
      simp only [Root.send, hphase] at h
      split at h
      · next hmem =>
          cases pure_eq_ok.mp h
          have hsend := pending_send p.down (.plain (.release r.entered))
          have hcard := card_erase_lt hmem
          simp only [Peer.weight, Root.weight, RootPhase.weight, hphase]
          omega
      · cases h
  | _ =>
      simp only [Root.send, hphase] at h
      cases h

theorem exchange_step_weight {a : Exchange} (h : exchangeStep c i a r p = .ok (r', p')) :
    r'.weight + p'.weight < r.weight + p.weight := by
  cases a with
  | accept =>
      simp only [exchangeStep] at h
      rw [Root.listenerCallback] at h
      split at h
      · next hrequested =>
          split at h
          · obtain ⟨hroot, hpeer⟩ := assign_rank_weight h
            simp only [Root.weight, Peer.weight, hrequested] at hroot hpeer ⊢
            simp only [Bool.false_eq_true, if_false, if_true] at hpeer ⊢
            omega
          · cases h
      · cases h
  | progress => exact exchange_progress_weight h
  | connectBack rank =>
      simp only [exchangeStep] at h
      rw [Root.connectBack] at h
      split at h
      · next hmem =>
          split at h
          · cases h
          · cases h
          · split at h
            · obtain ⟨hroot, hpeer⟩ := assign_rank_weight h
              have hlength := List.length_erase_add_one hmem
              simp only [Root.weight] at hroot ⊢
              omega
            · cases h
      · cases h
  | send rank => exact send_weight h
  | receive rank =>
      simp only [exchangeStep] at h
      cases hphase : r.phase with
      | collecting left =>
          simp only [Root.receive, hphase] at h
          split at h
          · next hready =>
              cases pure_eq_ok.mp h
              have hcard := card_erase_lt hready.1
              simp only [Peer.weight, Root.weight, RootPhase.weight, hphase, pending,
                ActiveLink.sent_receive, ActiveLink.processed_receive]
              omega
          · cases h
      | _ =>
          simp only [Root.receive, hphase] at h
          cases h

theorem card_others_le (r : Root m) : r.others.card ≤ r.endpoints.length :=
  (List.toFinset_card_le _).trans (List.length_filter_le _ _)

/-- A loop of the root is at its end. -/
theorem advance_weight (hroot : RootInv c order r) (h : r.advance = .ok r') :
    r'.weight < r.weight := by
  have hothers := card_others_le r
  have hlength : r.phase ≠ .idle → r.phase ≠ .waitingEndpoints → r.endpoints.length = m :=
    fun hidle hwaiting => hroot.started (.inr ⟨hidle, hwaiting⟩)
  rw [Root.advance] at h
  split at h
  · next hphase =>
      have hlength := hlength (by simp [hphase]) (by simp [hphase])
      split at h
      · cases pure_eq_ok.mp h
        simp only [Root.weight, RootPhase.weight, hphase]
        omega
      · cases h
  · next hphase =>
      have hlength := hlength (by simp [hphase]) (by simp [hphase])
      split at h
      · split at h
        · cases pure_eq_ok.mp h
          simp only [Root.weight, RootPhase.weight, hphase]
          omega
        · cases pure_eq_ok.mp h
          show RootPhase.weight (.distributing r.others) + _ < _
          simp only [Root.weight, RootPhase.weight, hphase]
          omega
      · cases h
  · next hphase =>
      have hlength := hlength (by simp [hphase]) (by simp [hphase])
      split at h
      · cases pure_eq_ok.mp h
        simp only [Root.weight, RootPhase.weight, hphase]
        omega
      · cases h
  · next hphase =>
      split at h
      · cases pure_eq_ok.mp h
        simp only [Root.weight, RootPhase.weight, hphase]
        omega
      · cases h
  · cases h

theorem root_step_weight {a : RootAction} (hroot : RootInv c order r)
    (h : rootStep a r = .ok r') (ha : (Label.root a : Label m).internal = true) :
    r'.weight < r.weight := by
  cases a with
  | enter => cases ha
  | advance => exact advance_weight hroot h
  | start =>
      have hothers := card_others_le r
      simp only [rootStep] at h
      split at h
      · next hstart =>
          cases pure_eq_ok.mp h
          simp only [Root.weight, RootPhase.weight, hstart.1]
          omega
      · cases h

/-- Every internal step lowers the weight. -/
theorem Inv.weight_lt (h : Inv c order s) {l : Label m} (hl : l.internal = true)
    (hstep : step c l s = .ok s') : s'.weight < s.weight := by
  have hupdate : ∀ (i : Fin m) (p : Peer),
      (∑ j, (Function.update s.peers i p j).weight) + (s.peers i).weight =
        (∑ j, (s.peers j).weight) + p.weight := by
    intro i p
    have hi := Finset.mem_univ i
    have hweight : (fun j => (Function.update s.peers i p j).weight) =
        Function.update (fun j => (s.peers j).weight) i p.weight :=
      funext fun j => Function.apply_update (fun _ => Peer.weight) s.peers i p j
    rw [hweight, Finset.sum_update_of_mem hi,
      Finset.sum_eq_add_sum_sdiff_singleton_of_mem hi fun j => (s.peers j).weight]
    omega
  cases l with
  | client i a =>
      obtain ⟨p, hp, hstep⟩ := bind_eq_ok.mp hstep
      cases pure_eq_ok.mp hstep
      have hlt := client_step_weight hp hl
      have hsum := hupdate i p
      simp only [State.weight]
      omega
  | exchange i a =>
      obtain ⟨⟨root, p⟩, hp, hstep⟩ := bind_eq_ok.mp hstep
      cases pure_eq_ok.mp hstep
      have hlt := exchange_step_weight hp
      have hsum := hupdate i p
      simp only [State.weight]
      omega
  | root a =>
      obtain ⟨root, hroot, hstep⟩ := bind_eq_ok.mp hstep
      cases pure_eq_ok.mp hstep
      have hlt := root_step_weight h.root hroot hl
      simp only [State.weight]
      omega

/-! ## Where no internal step can be taken -/

theorem bind_ne_blocked {α β : Type} {x : Except Stop α} {f : α → Except Stop β}
    (hx : x ≠ .error .blocked) (hf : ∀ a, f a ≠ .error .blocked) :
    x >>= f ≠ .error .blocked := by
  intro herror
  rcases bind_eq_error.mp herror with hx' | ⟨a, -, ha⟩
  · exact hx hx'
  · exact hf a ha

theorem map_error_ne_blocked {α : Type} (x : Except ControlError α) :
    (x.mapError .control : Except Stop α) ≠ .error .blocked := by
  cases x <;> rintro ⟨⟩

theorem register_endpoint_ne_blocked {α : Type} (rank : Int32) (endpoint : α)
    (endpoints : List (Int32 × α)) :
    registerEndpoint rank endpoint endpoints ≠ .error .blocked := by
  rw [registerEndpoint]
  split <;> rintro ⟨⟩

theorem assign_rank_ne_blocked (i : Fin m) (rank : Int32) (r : Root m) (p : Peer) :
    Root.assignRank i rank r p ≠ .error .blocked := by
  refine bind_ne_blocked ?_ fun r => bind_ne_blocked (map_error_ne_blocked _) fun _ => by rintro ⟨⟩
  rw [Root.registerEndpoint]
  split
  · rintro ⟨⟩
  · exact bind_ne_blocked (register_endpoint_ne_blocked _ _ _) fun _ => by rintro ⟨⟩

/-- No internal step can be taken. -/
structure Stuck (c : Cluster m) (s : State m) : Prop where
  client : ∀ i a, (Label.client i a : Label m).internal = true →
    clientStep c i a (s.peers i) = .error .blocked
  exchange : ∀ i a, exchangeStep c i a s.root (s.peers i) = .error .blocked
  root : ∀ a, (Label.root a : Label m).internal = true → rootStep a s.root = .error .blocked

theorem stuck_of_steps (h : ∀ l : Label m, l.internal = true → step c l s = .error .blocked) :
    Stuck c s where
  client i a ha := bind_pure_eq_error.mp (h (.client i a) ha)
  exchange i a := bind_pure_eq_error.mp (h (.exchange i a) rfl)
  root a ha := bind_pure_eq_error.mp (h (.root a) ha)

namespace Stuck

/-- All messages of the root to a client have been handed over. -/
theorem down (h : Stuck c s) (i : Fin m) : (s.peers i).down.next? = none := by
  have hblocked := h.client i .progress rfl
  cases hnext : (s.peers i).down.next? with
  | none => rfl
  | some message =>
      simp only [clientStep] at hblocked
      rw [Peer.progress, hnext] at hblocked
      cases message with
      | plain stamp => cases hblocked
      | control buffer =>
          exact absurd hblocked (bind_ne_blocked (map_error_ne_blocked _) fun _ => by rintro ⟨⟩)

/-- All messages of a client to the root have been handed over. -/
theorem up (h : Stuck c s) (i : Fin m) : (s.peers i).up.next? = none := by
  have hblocked := h.exchange i .progress
  cases hnext : (s.peers i).up.next? with
  | none => rfl
  | some message =>
      simp only [exchangeStep] at hblocked
      rw [hnext] at hblocked
      cases message with
      | plain stamp => cases hblocked
      | control buffer =>
          exact absurd hblocked (bind_ne_blocked (map_error_ne_blocked _) fun _ => by rintro ⟨⟩)

end Stuck

/-- All messages of a link were handed over, so its next receive is complete if it was sent. -/
theorem matched_of_next {l : Link} (hnext : l.next? = none) :
    l.sent.length ≤ l.processed ∧ l.matched? = l.plains[l.received]? := by
  have hle := List.getElem?_eq_none_iff.mp hnext
  refine ⟨hle, ?_⟩
  rw [ActiveLink.matched?, ActiveLink.arrived, List.take_of_length_le hle]
  rfl

/-- A receive of the client would be complete. -/
theorem DownLink.matched {k calls received : Nat} {announced : Bool} {resources : SharedResources}
    {l : Link} (h : DownLink c order i k calls announced received resources l)
    (hnext : l.next? = none) (hlt : received < calls) : l.matched?.isSome = true := by
  have hlength : received < (callStamps calls).length := by
    rwa [callStamps, List.length_map, List.length_range]
  rw [(matched_of_next hnext).2, ActiveLink.plains, h.sent.plains, h.received,
    List.getElem?_eq_getElem hlength]
  rfl

/-- A receive of the root would be complete. -/
theorem UpLink.matched {k replies received : Nat} {phase : ClientPhase} {l : Link}
    (h : UpLink c i k phase replies received l) (hnext : l.next? = none)
    (hlt : received < replies) : l.matched?.isSome = true := by
  have hlength : received < (replyStamps replies).length := by
    rwa [replyStamps, List.length_map, List.length_range]
  rw [(matched_of_next hnext).2, h.plains, h.received, List.getElem?_eq_getElem hlength]
  rfl

/-- The first message of the root has the rank. -/
theorem Announces.length_pos {k n : Nat} {announced : Bool}
    {sent : List (ActiveMessage Bytes Stamp)} (h : Announces c order k n announced sent) :
    0 < sent.length := by
  cases h with
  | early => exact Nat.succ_pos _
  | late => exact Nat.succ_pos _

/-- Every client has joined. -/
theorem Stuck.joined (hstuck : Stuck c s) (h : Inv c order s) (i : Fin m) :
    ∃ k, Connected c order s.root i (s.peers i) k ∧
      (s.peers i).client.phase ≠ .waitingRank := by
  cases h.peers i with
  | unconnected hi =>
      exfalso
      cases hi.opening with
      | connecting hphase =>
          have hblocked := hstuck.client i .connect rfl
          simp only [clientStep, if_pos hphase] at hblocked
          refine absurd hblocked (bind_ne_blocked (register_endpoint_ne_blocked _ _ _) fun _ => ?_)
          split
          · rintro ⟨⟩
          · exact bind_ne_blocked (map_error_ne_blocked _) fun _ => by rintro ⟨⟩
      | requested hp hlistener hphase hrequested =>
          have hblocked := hstuck.exchange i .accept
          simp only [exchangeStep] at hblocked
          rw [Root.listenerCallback, if_pos hrequested, if_pos h.root.rank] at hblocked
          exact assign_rank_ne_blocked _ _ _ _ hblocked
      | queried hlistener hphase hrequested hup =>
          have hnone := hstuck.up i
          rw [hup, Cluster.opening, hlistener] at hnone
          cases hnone
      | delayed k hlistener hphase hrequested hup hk hdelayed =>
          have hblocked := hstuck.exchange i (.connectBack (.ofNat (k + 1)))
          obtain ⟨k', j, hkk, hj, hget⟩ := h.root.delayed _ hdelayed
          obtain rfl := c.rank_inj h.root.nodup hk hj hkk
          obtain rfl := Option.some.inj (hk.symm.trans hj)
          simp only [exchangeStep] at hblocked
          rw [Root.connectBack, if_pos hdelayed, hget] at hblocked
          dsimp only at hblocked
          rw [if_pos rfl] at hblocked
          exact assign_rank_ne_blocked _ _ _ _ hblocked
  | connected k hi =>
      refine ⟨k, hi, fun hphase => ?_⟩
      have hblocked := hstuck.client i .finishInit rfl
      have hle := (matched_of_next (hstuck.down i)).1
      have hprocessed : 0 < (s.peers i).down.processed :=
        Nat.lt_of_lt_of_le hi.down.sent.length_pos hle
      have hrank := (hi.down.learned h.root.nodup).rank hprocessed
      obtain ⟨hlt, -⟩ := List.getElem?_eq_some_iff.mp hi.assigned
      have hlength := length_le_of_nodup h.root.nodup
      have hmax := c.lt_max
      have hne := ofNat_ne_neg_one (k := k + 1) (by omega)
      simp only [clientStep] at hblocked
      rw [if_pos ⟨hphase, hrank ▸ hne⟩] at hblocked
      refine absurd hblocked (bind_ne_blocked (register_endpoint_ne_blocked _ _ _) fun _ => ?_)
      dsimp only
      split
      · rintro ⟨⟩
      · exact bind_ne_blocked (map_error_ne_blocked _) fun _ => by rintro ⟨⟩

/-- The root has an endpoint to every client. -/
theorem Stuck.length_endpoints (hstuck : Stuck c s) (h : Inv c order s) :
    s.root.endpoints.length = m := by
  have hsubset : Finset.univ ⊆ (s.root.endpoints.map Prod.snd).toFinset := by
    intro i _
    obtain ⟨k, hi, -⟩ := hstuck.joined h i
    exact List.mem_toFinset.mpr (List.mem_map_of_mem hi.endpoint)
  have hcard := (Finset.card_le_card hsubset).trans (List.toFinset_card_le _)
  rw [Finset.card_univ, Fintype.card_fin, List.length_map] at hcard
  have hsum := h.root.length_eq
  have hle := length_le_of_nodup h.root.nodup
  omega

/-- A client is between two barriers, or waits for the root. -/
theorem Stuck.client_waits (hstuck : Stuck c s) {k : Nat}
    (hi : Connected c order s.root i (s.peers i) k)
    (hphase : (s.peers i).client.phase ≠ .waitingRank) :
    (s.peers i).client.entered = (s.peers i).client.returned ∨
    (s.peers i).client.entered = (s.peers i).client.returned + 1 ∧
      (s.root.calls (.ofNat (k + 1), i) ≤ 2 * (s.peers i).client.returned ∨
        s.root.calls (.ofNat (k + 1), i) ≤ 2 * (s.peers i).client.returned + 1 ∧
          (s.peers i).client.replies = (s.peers i).client.returned + 1) := by
  have hentered := hi.entered
  have hdown := hi.down
  cases hp : (s.peers i).client.phase with
  | connecting => exact absurd hp hi.phase
  | waitingRank => exact absurd hp hphase
  | idle =>
      rw [Client.inside, hp] at hentered
      exact .inl hentered
  | replying =>
      have hblocked := hstuck.client i .reply rfl
      simp only [clientStep, if_pos hp] at hblocked
      cases hblocked
  | awaitingCall =>
      have hblocked := hstuck.client i .receive rfl
      simp only [Client.inside, Client.calls, hp] at hentered hdown
      refine .inr ⟨hentered, .inl (Nat.le_of_not_lt fun hlt => ?_)⟩
      simp only [clientStep] at hblocked
      rw [Peer.receive, if_pos (hdown.matched (hstuck.down i) hlt), hp] at hblocked
      cases hblocked
  | awaitingRelease =>
      have hblocked := hstuck.client i .receive rfl
      simp only [Client.inside, Client.calls, hp] at hentered hdown
      refine .inr ⟨hentered, .inr ⟨Nat.le_of_not_lt fun hlt => ?_, by rw [Client.replies, hp]⟩⟩
      simp only [clientStep] at hblocked
      rw [Peer.receive, if_pos (hdown.matched (hstuck.down i) hlt), hp] at hblocked
      cases hblocked

/-- A loop of the root that sends is over. -/
theorem Stuck.left_empty (hstuck : Stuck c s) {left : Finset (Int32 × Fin m)}
    (hphase : s.root.phase = .calling left ∨ s.root.phase = .distributing left ∨
      s.root.phase = .releasing left) : left = ∅ := by
  refine Finset.eq_empty_of_forall_notMem fun e he => ?_
  obtain ⟨rank, i⟩ := e
  have hblocked := hstuck.exchange i (.send rank)
  rcases hphase with hphase | hphase | hphase
  · simp only [exchangeStep, Root.send, hphase, if_pos he] at hblocked
    cases hblocked
  · simp only [exchangeStep, Root.send, hphase, if_pos he] at hblocked
    exact absurd hblocked (bind_ne_blocked (map_error_ne_blocked _) fun _ => by rintro ⟨⟩)
  · simp only [exchangeStep, Root.send, hphase, if_pos he] at hblocked
    cases hblocked

/-- The root is between two barriers, or waits for a client that has not entered its own. -/
theorem Stuck.root_waits (hstuck : Stuck c s) (h : Inv c order s) :
    s.root.phase = .idle ∨ ∃ i, (s.peers i).client.entered < s.root.entered := by
  have hentered := h.root.entered
  cases hphase : s.root.phase with
  | idle => exact .inl rfl
  | waitingEndpoints =>
      have hblocked := hstuck.root .start rfl
      have hlength := congrArg Nat.succ (hstuck.length_endpoints h)
      simp only [rootStep, if_pos (And.intro hphase hlength)] at hblocked
      cases hblocked
  | calling left =>
      have hblocked := hstuck.root .advance rfl
      have hleft := hstuck.left_empty (.inl hphase)
      simp only [rootStep, Root.advance, hphase, hleft, if_true] at hblocked
      cases hblocked
  | distributing left =>
      have hblocked := hstuck.root .advance rfl
      have hleft := hstuck.left_empty (.inr (.inl hphase))
      simp only [rootStep, Root.advance, hphase, hleft, if_true] at hblocked
      cases hblocked
  | releasing left =>
      have hblocked := hstuck.root .advance rfl
      have hleft := hstuck.left_empty (.inr (.inr hphase))
      simp only [rootStep, Root.advance, hphase, hleft, if_true] at hblocked
      cases hblocked
  | collecting left =>
      rcases left.eq_empty_or_nonempty with hempty | ⟨⟨rank, i⟩, hmem⟩
      · have hblocked := hstuck.root .advance rfl
        simp only [rootStep, Root.advance, hphase, hempty, if_true] at hblocked
        split at hblocked <;> cases hblocked
      · -- the client of an endpoint whose reply has not come
        have hleft : s.root.left = left := by rw [Root.left, hphase]
        obtain ⟨k, rfl, hi⟩ := h.root.connected_of_endpoint (h.peers i)
          (h.root.mem_others_iff.mp (h.root.left (hleft ▸ hmem)))
        obtain ⟨k', hi', hjoined⟩ := hstuck.joined h i
        refine .inr ⟨i, ?_⟩
        have hup := hi.up
        have hcalls := hi.down.received_le
        have hblocked := hstuck.exchange i (.receive (.ofNat (k + 1)))
        have hreplies : (s.peers i).client.replies ≤ s.root.returned := by
          refine Nat.le_of_not_lt fun hlt => ?_
          simp only [Root.replies, hphase, if_pos hmem, Nat.add_zero] at hup
          simp only [exchangeStep, Root.receive, hphase] at hblocked
          rw [if_pos ⟨hmem, hup.matched (hstuck.up i) hlt⟩] at hblocked
          cases hblocked
        simp only [Root.inside, hphase] at hentered
        have hle : (s.peers i).client.returned ≤ (s.peers i).client.replies := by
          rw [Client.replies]
          split <;> omega
        rcases hstuck.client_waits hi hjoined with hout | ⟨hin, hcall | ⟨-, hreply⟩⟩
        · omega
        · simp only [Root.calls, hphase] at hcall
          omega
        · omega

/-- Where no internal step can be taken, every client has joined, and a number of barriers that all
processes have entered has returned everywhere. -/
structure Settled (s : State m) : Prop where
  joined : ∀ i, (s.peers i).client.phase ≠ .connecting ∧ (s.peers i).client.phase ≠ .waitingRank
  returned : ∀ b, (∀ p, s.entered p = b) → ∀ p, s.returned p = b

theorem Stuck.settled (hstuck : Stuck c s) (h : Inv c order s) : Settled s where
  joined i := by
    obtain ⟨k, hi, hphase⟩ := hstuck.joined h i
    exact ⟨hi.phase, hphase⟩
  returned b hb p := by
    have hidle : s.root.phase = .idle := by
      rcases hstuck.root_waits h with hidle | ⟨i, hlt⟩
      · exact hidle
      · have hroot : s.root.entered = b := hb none
        have hclient : (s.peers i).client.entered = b := hb (some i)
        omega
    have hroot : s.root.returned = b := by
      have hentered := h.root.entered
      rw [Root.inside, hidle] at hentered
      exact hentered.symm.trans (hb none)
    cases p with
    | none => exact hroot
    | some i =>
        obtain ⟨k, hi, hphase⟩ := hstuck.joined h i
        have hclient : (s.peers i).client.entered = b := hb (some i)
        have hcalls : s.root.calls (.ofNat (k + 1), i) = 2 * s.root.returned := by
          rw [Root.calls, hidle]
        show (s.peers i).client.returned = b
        rcases hstuck.client_waits hi hphase with hout | ⟨hin, hcall | ⟨hcall, -⟩⟩
        · omega
        · omega
        · omega

/-- The communicator from its reachable states on, without new calls. -/
def internalSystem (c : Cluster m) : System (State m) (Label m) where
  init := (system c).Reachable
  step s l s' := l.internal = true ∧ step c l s = .ok s'

/-- Without new calls, no run goes on forever, and where it ends all processes have returned from
the barriers that all have entered. -/
structure Returns (c : Cluster m) (s : State m) : Prop where
  finite : ∀ run : Nat → State m, run 0 = s →
    ¬ ∀ n, ∃ l : Label m, l.internal = true ∧ step c l (run n) = .ok (run (n + 1))
  settled : (∀ (l : Label m) s', l.internal = true → step c l s ≠ .ok s') → Settled s

/-- The barrier has no deadlock and returns. -/
theorem barrier_returns (hs : (system c).Reachable s) : Returns c s := by
  obtain ⟨order, h⟩ := reachable_inv hs
  refine ⟨fun run hrun hsteps => ?_, fun hnone => ?_⟩
  · have hstart : (internalSystem c).Reachable (run 0) := .of_init (hrun ▸ hs)
    have hreach : ∀ s, (internalSystem c).Reachable s → (system c).Reachable s :=
      fun s => System.Reachable.invariant (S := internalSystem c) (fun s hs => hs)
        fun s l s' hs hstep => System.Reachable.next hs hstep.2
    refine hstart.not_infinite (μ := State.weight) (fun s l s' hs hstep => ?_) hsteps
    obtain ⟨order, h⟩ := reachable_inv (hreach s hs)
    exact h.weight_lt hstep.1 hstep.2
  · refine (stuck_of_steps fun l hl => ?_).settled h
    have hkeeps := h.keeps l
    cases hstep : step c l s with
    | ok s' => exact absurd hstep (hnone l s' hl)
    | error e =>
        rw [hstep] at hkeeps
        exact congrArg Except.error hkeeps

set_option maxRecDepth 4000 in
theorem barrier_returns_pair :
    ∃ s, (system pair).Reachable s ∧ s.returned (some 0) = 1 ∧ Returns pair s := by
  obtain ⟨s, hrun, hreturned⟩ : ∃ s, run (step pair) (firstBarrier 0 1) (.start pair) = .ok s ∧
      s.returned (some 0) = 1 := ⟨_, rfl, rfl⟩
  exact ⟨s, run_reachable hrun, hreturned, barrier_returns (run_reachable hrun)⟩

end Rapidsmpf.Ucxx
