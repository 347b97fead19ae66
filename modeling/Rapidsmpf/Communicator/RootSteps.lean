import Rapidsmpf.Communicator.ClientSteps

/-!
# The steps of the root

Every step of the root that can be taken keeps what holds of the root and of every client, and none
ends with an exception. Of the clients that a step is not about, it leaves everything alone.
-/

namespace Rapidsmpf.Ucxx

open LittleEndian Codec Fallible Protocol

variable {m : Nat} {c : Cluster m} {order order' : List (Fin m)} {r r' : Root m} {i : Fin m}
  {p : Peer} {k : Nat} {rank : Int32}

/-! ## What a step leaves alone -/

/-- What a step of the root leaves alone of a client. -/
structure Kept (order order' : List (Fin m)) (r r' : Root m) (i : Fin m) : Prop where
  grows : order' = order ∨ ∃ j ≠ i, order' = order ++ [j]
  endpoints : ∀ rank, (rank, i) ∈ r'.endpoints ↔ (rank, i) ∈ r.endpoints
  calls : ∀ rank, (rank, i) ∈ r.endpoints → r'.calls (rank, i) = r.calls (rank, i)
  replies : ∀ rank, (rank, i) ∈ r.endpoints → r'.replies (rank, i) = r.replies (rank, i)
  announced : ∀ rank, (rank, i) ∈ r.endpoints → r'.announced (rank, i) = r.announced (rank, i)
  delayed : ∀ k, order[k]? = some i → Int32.ofNat (k + 1) ∈ r.resources.delayed →
    Int32.ofNat (k + 1) ∈ r'.resources.delayed
  addresses : ∀ rank a, r.resources.listenerAddresses.get rank = some a →
    r'.resources.listenerAddresses.get rank = some a

theorem Leads.concat {e : Int32 × RemoteAddress} (h : Leads c order i e) (j : Fin m) :
    Leads c (order ++ [j]) i e := by
  cases h with
  | root => exact .root
  | self hk =>
      obtain ⟨hlt, -⟩ := List.getElem?_eq_some_iff.mp hk
      exact .self ((List.getElem?_append_left hlt).trans hk)
  | other haddress => exact .other (Cluster.addressOf_concat j haddress)

theorem DownLink.concat {calls received : Nat} {announced : Bool} {s : SharedResources}
    {down : Link} (h : DownLink c order i k calls announced received s down) (j : Fin m) :
    DownLink c (order ++ [j]) i k calls announced received s down :=
  ⟨h.valid, h.sent.concat j, h.received, h.resources⟩

/-- The order in which the ranks are assigned only grows. -/
theorem Kept.getElem? (h : Kept order order' r r' i) (hk : order[k]? = some i) :
    order'[k]? = some i := by
  rcases h.grows with rfl | ⟨j, -, rfl⟩
  · exact hk
  · obtain ⟨hlt, -⟩ := List.getElem?_eq_some_iff.mp hk
    exact (List.getElem?_append_left hlt).trans hk

theorem Kept.not_mem (h : Kept order order' r r' i) (hi : i ∉ order) : i ∉ order' := by
  rcases h.grows with rfl | ⟨j, hj, rfl⟩
  · exact hi
  · intro hmem
    rcases List.mem_append.mp hmem with hmem | hmem
    · exact hi hmem
    · exact hj (List.mem_singleton.mp hmem).symm

theorem Unconnected.kept (h : Unconnected c order r i p) (hkept : Kept order order' r r' i) :
    Unconnected c order' r' i p := by
  refine ⟨h.down, fun rank hmem => h.endpoints rank ((hkept.endpoints rank).mp hmem), h.resources,
    h.entered, h.returned, ?_⟩
  cases h.opening with
  | connecting hphase hrequested hup horder hendpoints =>
      exact .connecting hphase hrequested hup (hkept.not_mem horder) hendpoints
  | requested hp hlistener hphase hrequested hup horder hendpoints =>
      exact .requested hp hlistener hphase hrequested hup (hkept.not_mem horder) hendpoints
  | queried hlistener hphase hrequested hup horder hendpoints =>
      exact .queried hlistener hphase hrequested hup (hkept.not_mem horder) hendpoints
  | delayed k hlistener hphase hrequested hup horder hdelayed hendpoints =>
      exact .delayed k hlistener hphase hrequested hup (hkept.getElem? horder)
        (hkept.delayed k horder hdelayed) hendpoints

theorem Connected.kept (h : Connected c order r i p k) (hkept : Kept order order' r r' i) :
    Connected c order' r' i p k := by
  have hup := h.up
  have hdown := h.down
  rw [← hkept.replies _ h.endpoint] at hup
  rw [← hkept.calls _ h.endpoint, ← hkept.announced _ h.endpoint] at hdown
  refine ⟨(hkept.endpoints _).mpr h.endpoint, hkept.getElem? h.assigned, h.requested, h.phase, hup,
    ?_, h.joined, h.waiting, h.entered, fun e he => ?_, h.rootEndpoint, h.selfEndpoint,
    fun hregistered => hkept.addresses _ _ (h.registered hregistered)⟩
  · rcases hkept.grows with rfl | ⟨j, -, rfl⟩
    · exact hdown
    · exact hdown.concat j
  · rcases hkept.grows with rfl | ⟨j, -, rfl⟩
    · exact h.leads e he
    · exact (h.leads e he).concat j

theorem PeerInv.kept (h : PeerInv c order r i p) (hkept : Kept order order' r r' i) :
    PeerInv c order' r' i p := by
  cases h with
  | unconnected h => exact .unconnected (h.kept hkept)
  | connected k h => exact .connected k (h.kept hkept)

/-! ## The root alone -/

theorem mem_others {e : Int32 × Fin m} : e ∈ r.others ↔ e ∈ r.endpoints ∧ e.1 ≠ 0 := by
  rw [Root.others, List.mem_toFinset, List.mem_filter, decide_eq_true_eq]

theorem Cluster.succ_ne_zero (c : Cluster m) (hk : k < m) : Int32.ofNat (k + 1) ≠ 0 := by
  have hmax := c.lt_max
  intro heq
  have hzero := ofNat_inj (j := k + 1) (k := 0) (by omega) (by decide) heq
  omega

/-- An endpoint leads to the client that has its rank. -/
theorem RootInv.rank_of_endpoint (h : RootInv c order r) {e : Int32 × Fin m}
    (he : e ∈ r.endpoints) : ∃ k < m, e.1 = .ofNat (k + 1) ∧ order[k]? = some e.2 := by
  obtain ⟨k, hk, horder⟩ := h.endpoints e he
  obtain ⟨hlt, -⟩ := List.getElem?_eq_some_iff.mp horder
  exact ⟨k, Nat.lt_of_lt_of_le hlt (length_le_of_nodup h.nodup), hk, horder⟩

/-- All endpoints are those to the other ranks. -/
theorem RootInv.mem_others_iff (h : RootInv c order r) {e : Int32 × Fin m} :
    e ∈ r.others ↔ e ∈ r.endpoints := by
  refine mem_others.trans (and_iff_left_of_imp fun he => ?_)
  obtain ⟨k, hk, hrank, -⟩ := h.rank_of_endpoint he
  rw [hrank]
  exact c.succ_ne_zero hk

/-- A step between program points of the root. -/
theorem Kept.of_phase {phase : RootPhase m} {distributed : Bool} {entered returned : Nat}
    (hcalls : ∀ e ∈ r.endpoints, Root.calls ⟨r.resources, r.endpoints, phase, distributed, entered,
      returned⟩ e = r.calls e)
    (hreplies : ∀ e ∈ r.endpoints, Root.replies ⟨r.resources, r.endpoints, phase, distributed,
      entered, returned⟩ e = r.replies e)
    (hannounced : ∀ e ∈ r.endpoints, Root.announced ⟨r.resources, r.endpoints, phase, distributed,
      entered, returned⟩ e = r.announced e) (i : Fin m) :
    Kept order order r ⟨r.resources, r.endpoints, phase, distributed, entered, returned⟩ i where
  grows := .inl rfl
  endpoints _ := Iff.rfl
  calls rank he := hcalls (rank, i) he
  replies rank he := hreplies (rank, i) he
  announced rank he := hannounced (rank, i) he
  delayed _ _ h := h
  addresses _ _ h := h

theorem RootInv.of_phase (h : RootInv c order r) {phase : RootPhase m} {distributed : Bool}
    {entered returned : Nat}
    (hstarted : Root.Started ⟨r.resources, r.endpoints, phase, distributed, entered, returned⟩ →
      r.endpoints.length = m)
    (hleft : Root.left ⟨r.resources, r.endpoints, phase, distributed, entered, returned⟩ ⊆ r.others)
    (hdistributed : distributed = true ↔
      Root.Distributes ⟨r.resources, r.endpoints, phase, distributed, entered, returned⟩)
    (hentered : entered = returned +
      Root.inside ⟨r.resources, r.endpoints, phase, distributed, entered, returned⟩) :
    RootInv c order ⟨r.resources, r.endpoints, phase, distributed, entered, returned⟩ :=
  ⟨h.rank, h.nextRank, h.nodup, h.ranks, h.endpoints, h.delayed, h.right, h.root, hstarted, hleft,
    hdistributed, hentered⟩

/-- What holds behind a step of the root alone. -/
def Alone (c : Cluster m) (order : List (Fin m)) (r r' : Root m) : Prop :=
  RootInv c order r' ∧ ∀ i, Kept order order r r' i

theorem RootInv.enter (h : RootInv c order r) (hphase : r.phase = .idle) :
    Keeps (Alone c order r) (rootStep .enter r) := by
  have hdistributed := h.distributed
  have hentered := h.entered
  simp only [Root.Distributes, Root.inside, hphase] at hdistributed hentered
  simp only [rootStep, if_pos hphase]
  refine ⟨h.of_phase (fun hstarted => ?_) (Finset.empty_subset _) ?_
    (congrArg (· + 1) hentered), Kept.of_phase (fun e _ => ?_) (fun e _ => ?_) (fun e _ => ?_)⟩
  · rcases hstarted with hreturned | ⟨-, hne⟩
    · exact h.started (.inl hreturned)
    · exact absurd rfl hne
  · simpa [Root.Distributes] using hdistributed
  · simp only [Root.calls, hphase]
  · simp only [Root.replies, hphase]
  · simp only [Root.announced, hphase]

theorem RootInv.start (h : RootInv c order r) : Keeps (Alone c order r) (rootStep .start r) := by
  have hdistributed := h.distributed
  have hentered := h.entered
  simp only [rootStep]
  split
  · next hstart =>
      obtain ⟨hphase, hlength⟩ := hstart
      simp only [Root.Distributes, Root.inside, hphase] at hdistributed hentered
      refine ⟨h.of_phase (fun _ => Nat.succ.inj hlength) (Finset.Subset.refl _) ?_ hentered,
        Kept.of_phase (fun e he => ?_) (fun e _ => ?_) (fun e _ => ?_)⟩
      · simpa [Root.Distributes] using hdistributed
      · simp only [Root.calls, hphase, h.mem_others_iff.mpr he, if_true, Nat.add_zero]
      · simp only [Root.replies, hphase]
      · simp only [Root.announced, hphase]
  · exact rfl

/-- All clients are called. -/
theorem RootInv.advance_calling (h : RootInv c order r) (hphase : r.phase = .calling ∅) :
    Keeps (Alone c order r) r.advance := by
  have hdistributed := h.distributed
  have hentered := h.entered
  simp only [Root.Distributes, Root.inside, hphase] at hdistributed hentered
  simp only [Root.advance, hphase, if_true]
  refine ⟨h.of_phase (fun _ => h.started (.inr (by simp [hphase])))
    (Finset.Subset.refl _) ?_ hentered,
    Kept.of_phase (fun e _ => ?_) (fun e he => ?_) (fun e _ => ?_)⟩
  · simpa [Root.Distributes] using hdistributed
  · simp [Root.calls, hphase]
  · simp only [Root.replies, hphase, h.mem_others_iff.mpr he, if_true, Nat.add_zero]
  · simp only [Root.announced, hphase]

/-- All clients have answered. -/
theorem RootInv.advance_collecting (h : RootInv c order r) (hphase : r.phase = .collecting ∅) :
    Keeps (Alone c order r) r.advance := by
  have hdistributed := h.distributed
  have hentered := h.entered
  simp only [Root.Distributes, Root.inside, hphase] at hdistributed hentered
  simp only [Root.advance, hphase, if_true]
  have hlength := h.started (.inr (by simp [hphase]))
  split
  · next hdone =>
      refine ⟨h.of_phase (fun _ => hlength) (Finset.Subset.refl _) ?_ hentered,
        Kept.of_phase (fun e he => ?_) (fun e he => ?_) (fun e _ => ?_)⟩
      · simpa [Root.Distributes] using hdone
      · simp only [Root.calls, hphase, h.mem_others_iff.mpr he, if_true, Nat.add_zero]
      · simp [Root.replies, hphase]
      · simp only [Root.announced, hphase]
  · next hdone =>
      refine ⟨h.of_phase (fun _ => hlength) (Finset.Subset.refl _) ?_ hentered,
        Kept.of_phase (fun e _ => ?_) (fun e he => ?_) (fun e he => ?_)⟩
      · simp [Root.Distributes]
      · simp only [Root.calls, hphase]
      · simp [Root.replies, hphase]
      · simpa [Root.announced, hphase, h.mem_others_iff.mpr he] using hdone

/-- The addresses are sent to all clients. -/
theorem RootInv.advance_distributing (h : RootInv c order r)
    (hphase : r.phase = .distributing ∅) :
    Keeps (Alone c order r) r.advance := by
  have hdistributed := h.distributed
  have hentered := h.entered
  simp only [Root.Distributes, Root.inside, hphase] at hdistributed hentered
  simp only [Root.advance, hphase, if_true]
  refine ⟨h.of_phase (fun _ => h.started (.inr (by simp [hphase])))
    (Finset.Subset.refl _) ?_ hentered,
    Kept.of_phase (fun e he => ?_) (fun e _ => ?_) (fun e _ => ?_)⟩
  · simpa [Root.Distributes] using hdistributed
  · simp only [Root.calls, hphase, h.mem_others_iff.mpr he, if_true, Nat.add_zero]
  · simp only [Root.replies, hphase]
  · simpa [Root.announced, hphase] using hdistributed

/-- All clients are released. -/
theorem RootInv.advance_releasing (h : RootInv c order r) (hphase : r.phase = .releasing ∅) :
    Keeps (Alone c order r) r.advance := by
  have hdistributed := h.distributed
  have hentered := h.entered
  simp only [Root.Distributes, Root.inside, hphase] at hdistributed hentered
  simp only [Root.advance, hphase, if_true]
  refine ⟨h.of_phase (fun _ => h.started (.inr (by simp [hphase])))
    (Finset.empty_subset _) ?_ hentered,
    Kept.of_phase (fun e _ => ?_) (fun e _ => ?_) (fun e _ => ?_)⟩
  · simpa [Root.Distributes] using hdistributed
  · simp [Root.calls, hphase]
    omega
  · simp only [Root.replies, hphase]
  · simp only [Root.announced, hphase]

/-- The steps of the root alone. -/
theorem RootInv.root_step (h : RootInv c order r) (a : RootAction) :
    Keeps (Alone c order r) (rootStep a r) := by
  cases a with
  | enter =>
      by_cases hphase : r.phase = .idle
      · exact h.enter hphase
      · simp only [rootStep, if_neg hphase]
        exact rfl
  | start => exact h.start
  | advance =>
      show Keeps (Alone c order r) r.advance
      cases hphase : r.phase with
      | calling left =>
          by_cases hleft : left = ∅
          · exact h.advance_calling (hleft ▸ hphase)
          · simp only [Root.advance, hphase, if_neg hleft]
            exact rfl
      | collecting left =>
          by_cases hleft : left = ∅
          · exact h.advance_collecting (hleft ▸ hphase)
          · simp only [Root.advance, hphase, if_neg hleft]
            exact rfl
      | distributing left =>
          by_cases hleft : left = ∅
          · exact h.advance_distributing (hleft ▸ hphase)
          · simp only [Root.advance, hphase, if_neg hleft]
            exact rfl
      | releasing left =>
          by_cases hleft : left = ∅
          · exact h.advance_releasing (hleft ▸ hphase)
          · simp only [Root.advance, hphase, if_neg hleft]
            exact rfl
      | _ => simp only [Root.advance, hphase]; exact rfl

end Rapidsmpf.Ucxx
