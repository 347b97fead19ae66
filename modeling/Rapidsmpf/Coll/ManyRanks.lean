import Rapidsmpf.Coll.GatherReuse

/-!
# More ranks than a chunk id can name

A chunk id has 26 bits for the rank it comes from, so the finish message of the rank `2 ^ 26` names
the rank 0. Nobody stops it: it comes back to the rank it was sent by, which counts it in place of
the finish message of a rank that has not finished. `Passed` follows the finish messages around the
ring, from rank to rank.
-/

namespace Rapidsmpf.AllGather

open Protocol Coll Circular Fallible

variable {n r k m : Nat} {s : Ranks} {a a₁ : Members} {c c₁ : Comm} {ids : List Nat}

/-! ## Finish messages that announce nothing -/

/-- A finish message that fits its field and announces no contributions. -/
def Announces (id : Nat) : Prop := (Msg.finish id).Valid ∧ (Msg.finish id).announced = 0

/-- The members when `k` finish messages were received, of which `f` were sent on. -/
def Members.heard (k f : Nat) (a : Members) : Members :=
  { a with
    remoteFinishCounter := a.remoteFinishCounter - k
    finishCounter := a.finishCounter - k
    fireAndForget := a.fireAndForget + f }

@[simp] theorem heard_zero : a.heard 0 0 = a := by simp [Members.heard]

theorem heard_heard (k f k' f' : Nat) :
    (a.heard k f).heard k' f' = a.heard (k + k') (f + f') := by
  simp only [Members.heard, Nat.cast_add, Members.mk.injEq, true_and, and_true]
  omega

/-- The finish messages that a rank sends on. -/
def sentOn (n r : Nat) (ids : List Nat) : List Nat :=
  ids.filter fun id => (Msg.finish id).origin ≠ succ n r

/-- The messages that carry finish messages in the first AllGather. -/
def finishes (ids : List Nat) : List (Nat × Bytes) :=
  ids.map fun id => (0, (Msg.finish id).serialize)

/-- The messages still to be received on a link are finish messages. -/
def Incoming (c : Comm) (link : Rank × Rank) (ids : List Nat) : Prop :=
  (c.metadata link).sent.drop (c.metadata link).matched = finishes ids

/-- The metadata channels after the finish messages `ids` were received and `out` were sent. -/
structure Passes (n r : Nat) (ids out : List Nat) (c c' : Comm) : Prop where
  sent : c'.metadata (r, succ n r) = (c.metadata (r, succ n r)).sendAll (finishes out)
  received : (c'.metadata (pred n r, r)).sent = (c.metadata (pred n r, r)).sent
  kept : ∀ link ≠ (r, succ n r), link ≠ (pred n r, r) ∨ ids = [] →
    c'.metadata link = c.metadata link

theorem metadata_send_of_ne {src dst stamp : Nat} {msg : Bytes} {link : Rank × Rank}
    (hne : link ≠ (src, dst)) :
    (c.sendMetadata src dst stamp msg).metadata link = c.metadata link :=
  Function.update_of_ne hne _ _

theorem announces_zero : Announces 0 := ⟨(by decide : 0 < 2 ^ 64), rfl⟩

theorem chunk_id_announces {origin : Nat} (ho : origin < 2 ^ 26) : Announces (chunkId 0 origin) :=
  ⟨chunk_id_lt (by decide) ho, chunk_id_sequence (by decide) ho⟩

/-- The message at the front of a link is received. -/
theorem Incoming.next {src dst id : Nat} (h : Incoming c (src, dst) (id :: ids)) :
    ∃ c', c.recvFrom src dst 0 = some ((Msg.finish id).serialize, c') ∧
      Incoming c' (src, dst) ids ∧
      (c'.metadata (src, dst)).sent = (c.metadata (src, dst)).sent ∧
      ∀ link ≠ (src, dst), c'.metadata link = c.metadata link := by
  have hnext : (c.metadata (src, dst)).next? = some (0, (Msg.finish id).serialize) := by
    have hhead := congrArg List.head? h
    rwa [List.head?_drop] at hhead
  refine ⟨_, by rw [Comm.recvFrom, hnext]; rfl, ?_, ?_, fun link hne => ?_⟩
  · have htail := congrArg List.tail h
    rw [List.tail_drop] at htail
    simpa [Incoming, finishes] using htail
  · simp
  · exact Function.update_of_ne hne _ _

/-- The body of the metadata loop for a finish message that announces nothing. -/
theorem receive_message_finish {id : Nat} (hid : Announces id) (memType : MemoryType) :
    ∃ c', receiveMessage n r 0 (.deserialize (Msg.finish id).serialize memType) (a, c) =
        (a.heard 1 (sentOn n r [id]).length, c') ∧
      c'.metadata (r, succ n r) = (c.metadata (r, succ n r)).sendAll (finishes (sentOn n r [id])) ∧
      ∀ link ≠ (r, succ n r), c'.metadata link = c.metadata link := by
  have hsays := Chunk.deserialize_finish hid.1 memType
  have hfinish := hsays.is_finish_eq
  have hsequence := hsays.sequence_eq
  rw [hid.2] at hsequence
  by_cases hdst : (Msg.finish id).origin = succ n r
  · refine ⟨c, ?_, ?_, fun _ _ => rfl⟩
    · simp [receiveMessage, hfinish, Msg.isFinish, hsays.origin_eq, hdst, hsequence, markFinish,
        Members.heard, sentOn]
    · simp [sentOn, hdst, Channel.sendAll, finishes]
  · refine ⟨c.sendMetadata r (succ n r) 0 (Msg.finish id).serialize, ?_, ?_, fun link hne => ?_⟩
    · simp [receiveMessage, hfinish, Msg.isFinish, hsays.origin_eq, hdst, hsequence, markFinish,
        Members.heard, sentOn, hsays.serialize_eq]
    · simp [sentOn, hdst, Channel.sendAll, Comm.sendMetadata, Channel.send, finishes]
    · exact metadata_send_of_ne hne

/-- The metadata loop receives finish messages while it waits for at least as many. -/
theorem receive_metadata_finishes (memType : Nat → MemoryType) {arrived : Nat} (hn : 1 < n)
    (hr : r < n) (hids : ∀ id ∈ ids, Announces id) (hin : Incoming c (pred n r, r) ids)
    (hcounter : (ids.length : Int) ≤ a.remoteFinishCounter) (harrived : ids.length ≤ arrived) :
    ∃ c', receiveMetadata n r 0 memType arrived (a, c) =
        (a.heard ids.length (sentOn n r ids).length, c') ∧
      Passes n r ids (sentOn n r ids) c c' := by
  induction ids generalizing a c arrived memType with
  | nil =>
      have hnone : c.recvFrom (pred n r) r 0 = none := by
        have hend : (c.metadata (pred n r, r)).next? = none := by
          have hhead := congrArg List.head? hin
          rwa [List.head?_drop] at hhead
        rw [Comm.recvFrom, hend]
        rfl
      refine ⟨c, ?_, ?_, rfl, fun link _ _ => rfl⟩
      · cases arrived with
        | zero => simp [receiveMetadata, sentOn]
        | succ arrived => simp [receiveMetadata, sentOn, hnone]
      · simp [Channel.sendAll, sentOn, finishes]
  | cons id ids ih =>
      obtain ⟨arrived, rfl⟩ : ∃ k, arrived = k + 1 := ⟨arrived - 1, by
        rw [List.length_cons] at harrived
        omega⟩
      obtain ⟨c₁, hrecv, hrest, hreceived, hframe⟩ := hin.next
      have hmore : needsMore a = true := by
        rw [List.length_cons, Nat.cast_add] at hcounter
        have hpos : 0 < a.remoteFinishCounter := by omega
        simp [needsMore, hpos]
      rw [receiveMetadata, if_pos hmore]
      simp only [hrecv]
      obtain ⟨c₂, hbody, hsent, hkept⟩ := receive_message_finish (n := n) (r := r) (a := a)
        (c := c₁) (hids id List.mem_cons_self) (memType arrived)
      have hrest₂ : Incoming c₂ (pred n r, r) ids := by
        rw [Incoming, hkept _ (links_ne hn hr)]
        exact hrest
      have hcounter₂ : (ids.length : Int) ≤
          (a.heard 1 (sentOn n r [id]).length).remoteFinishCounter := by
        rw [List.length_cons] at hcounter
        simp only [Members.heard]
        omega
      have harrived₂ : ids.length ≤ arrived := Nat.le_of_succ_le_succ harrived
      obtain ⟨c', hloop, hpasses⟩ := ih memType
        (fun id hid => hids id (List.mem_cons_of_mem _ hid)) hrest₂ hcounter₂ harrived₂
      have hsplit : sentOn n r (id :: ids) = sentOn n r [id] ++ sentOn n r ids :=
        List.filter_append [id] ids
      refine ⟨c', ?_, ?_, ?_, fun link hout hin => ?_⟩
      · rw [hbody, hloop, heard_heard, hsplit, List.length_append, List.length_cons, Nat.add_comm 1]
      · rw [hpasses.sent, hsent, hframe _ (links_ne hn hr).symm, hsplit]
        simp [Channel.sendAll, finishes]
      · rw [hpasses.received, hkept _ (links_ne hn hr), hreceived]
      · have hne : link ≠ (pred n r, r) := hin.resolve_right (List.cons_ne_nil _ _)
        rw [hpasses.kept link hout (.inl hne), hkept link hout, hframe link hne]

/-- Nothing is ready but finish messages, which have arrived, and all sends of them are complete. -/
def quiet (arrived sendsCompleted : Nat) : Env where
  written := fun _ => false
  arrived := arrived
  memType := fun _ => .host
  allocated := fun _ => false
  received := []
  sent := []
  sendsCompleted := sendsCompleted

/-- A call of `event_loop` that receives finish messages only. -/
theorem event_loop_finishes (hn : 1 < n) (hr : r < n)
    (hsend : sendReady n r 0 (fun _ => false) (a, c) = .ok (a₁, c₁))
    (hnone : a₁.toReceive = []) (hids : ∀ id ∈ ids, Announces id)
    (hin : Incoming c₁ (pred n r, r) ids) (hcounter : (ids.length : Int) ≤ a₁.remoteFinishCounter) :
    ∃ env c' a', eventLoop n r 0 env (a, c) = .ok ({ a' with canExtract := isDone a' }, c') ∧
      a' = { a₁.heard ids.length 0 with fireAndForget := 0 } ∧
      Passes n r ids (sentOn n r ids) c₁ c' := by
  obtain ⟨c', hloop, hpasses⟩ := receive_metadata_finishes (fun _ => .host) hn hr hids
    hin hcounter (Nat.le_refl _)
  refine ⟨quiet ids.length (a₁.fireAndForget + (sentOn n r ids).length), c', _, ?_, rfl, hpasses⟩
  have hposts : postReceives n r 0 (fun _ => false)
      (a₁.heard ids.length (sentOn n r ids).length, c') =
        .ok (a₁.heard ids.length (sentOn n r ids).length, c') := by
    have hnone' : (a₁.heard ids.length (sentOn n r ids).length).toReceive = [] := hnone
    rw [postReceives, hnone']
    rfl
  have hcommunicate : communicate n r 0
      (quiet ids.length (a₁.fireAndForget + (sentOn n r ids).length)) (a, c) =
        .ok ({ a₁.heard ids.length 0 with fireAndForget := 0 }, c') := by
    simp only [communicate, quiet, hsend, bind, Except.bind, hloop, hposts, List.foldlM_nil, pure,
      Except.pure]
    simp [Members.heard]
  rw [eventLoop, if_neg (Nat.ne_of_gt hn), hcommunicate]
  rfl

/-- The first loop sends the finish message of the rank. -/
theorem send_ready_finish {rest : List Chunk} (hid : Announces (chunkId 0 r))
    (hready : extractReady (fun _ => false) a.inserted = ([.fromEmpty 0 r none], rest)) :
    sendReady n r 0 (fun _ => false) (a, c) =
      .ok ({ a with
        inserted := rest, finishCounter := a.finishCounter - 1,
        fireAndForget := a.fireAndForget + 1 },
        c.sendMetadata r (succ n r) 0 (Msg.finish (chunkId 0 r)).serialize) := by
  have hsays : (Chunk.fromEmpty 0 r none).Says (.finish (chunkId 0 r)) := ⟨rfl, rfl, rfl, rfl⟩
  simp only [sendReady, hready, List.foldlM_cons, List.foldlM_nil, sendChunk,
    hsays.is_finish_eq, hsays.sequence_eq, hsays.serialize_eq, hid.2]
  rfl

/-- A step of `event_loop` that receives finish messages only. -/
theorem Reachable.call (hn : 1 < n) (hr : r < n) (hs : (system n).Reachable s)
    (hopen : (s.members r).canExtract = false) (hnumber : s.number r = 0)
    (hsend : sendReady n r 0 (fun _ => false) (s.members r, s.comm) = .ok (a₁, c₁))
    (hnone : a₁.toReceive = []) (hids : ∀ id ∈ ids, Announces id)
    (hin : Incoming c₁ (pred n r, r) ids) (hcounter : (ids.length : Int) ≤ a₁.remoteFinishCounter) :
    ∃ s' a', (system n).Reachable s' ∧ s'.members = Function.update s.members r
        { a' with canExtract := isDone a' } ∧
      a' = { a₁.heard ids.length 0 with fireAndForget := 0 } ∧
      s'.number = s.number ∧ s'.insertions = s.insertions ∧
      Passes n r ids (sentOn n r ids) c₁ s'.comm := by
  obtain ⟨env, c', a', hloop, ha', hpasses⟩ :=
    event_loop_finishes hn hr hsend hnone hids hin hcounter
  have hnext : (system n).step s (.eventLoop r env)
      ({ s with comm := c' }.put r { a' with canExtract := isDone a' }) := by
    refine ⟨hr, ?_⟩
    simp [step, hopen, hnumber, hloop, bind, Except.bind, pure, Except.pure]
  exact ⟨_, a', hs.next hnext, rfl, ha', rfl, rfl, hpasses⟩

/-- A rank that counts no insertions finishes, and sends on the finish messages it receives. -/
theorem Reachable.finish (hn : 1 < n) (hr : r < n) (hs : (system n).Reachable s)
    (hopen : (s.members r).locallyFinished = false) (hcan : (s.members r).canExtract = false)
    (hnumber : s.number r = 0) (hnlocal : (s.members r).nlocalInsertions = 0)
    (hready : extractReady (fun _ => false) ((s.members r).inserted ++ [.fromEmpty 0 r none]) =
      ([.fromEmpty 0 r none], (s.members r).inserted))
    (hnone : (s.members r).toReceive = []) (hid : Announces (chunkId 0 r))
    (hids : ∀ id ∈ ids, Announces id) (hin : Incoming s.comm (pred n r, r) ids)
    (hcounter : (ids.length : Int) ≤ (s.members r).remoteFinishCounter) :
    ∃ s' a', (system n).Reachable s' ∧ s'.members = Function.update s.members r
        { a' with canExtract := isDone a' } ∧
      a' = { s.members r with
        finishCounter := (s.members r).finishCounter - 1 - ids.length
        remoteFinishCounter := (s.members r).remoteFinishCounter - ids.length
        locallyFinished := true, fireAndForget := 0 } ∧
      s'.number = s.number ∧ s'.insertions = s.insertions ∧
      Passes n r ids (chunkId 0 r :: sentOn n r ids) s.comm s'.comm := by
  have hfinish : (system n).step s (.insertFinished r)
      (s.put r (insertFinished r (s.members r))) := by
    refine ⟨hr, ?_⟩
    simp [step, hopen]
    rfl
  have hself : (s.put r (insertFinished r (s.members r))).members r =
      insertFinished r (s.members r) := Function.update_self ..
  have hincoming : Incoming (s.comm.sendMetadata r (succ n r) 0
      (Msg.finish (chunkId 0 r)).serialize) (pred n r, r) ids := by
    rw [Incoming, metadata_send_of_ne (links_ne hn hr)]
    exact hin
  have hbox : extractReady (fun _ => false) (insertFinished r (s.members r)).inserted =
      ([.fromEmpty 0 r none], (s.members r).inserted) := by
    rw [insertFinished, hnlocal]
    exact hready
  have hsend := (congrArg (fun a => sendReady n r 0 (fun _ => false) (a, s.comm)) hself).trans
    (send_ready_finish hid hbox)
  obtain ⟨s', a', hs', hmembers, ha', hnumber', hinsertions, hpasses⟩ :=
    Reachable.call hn hr (hs.next hfinish) (by rw [hself]; exact hcan) hnumber hsend hnone hids
      hincoming hcounter
  refine ⟨s', a', hs', ?_, ?_, hnumber', hinsertions, ?_, ?_, ?_⟩
  · rw [hmembers]
    exact Function.update_idem ..
  · rw [ha']
    rfl
  · rw [hpasses.sent]
    simp [Comm.sendMetadata, Channel.send, Channel.sendAll, finishes]
  · rw [hpasses.received, metadata_send_of_ne (links_ne hn hr)]
  · intro link hout hrecv
    rw [hpasses.kept link hout hrecv, metadata_send_of_ne hout]

/-! ## Around the ring -/

/-- The finish messages that reach the rank `k`: those of the ranks before it, and one that names
the rank 0 as well. -/
def passedIds : Nat → List Nat
  | 0 => [0]
  | k + 1 => chunkId 0 k :: passedIds k

theorem length_passed_ids (k : Nat) : (passedIds k).length = k + 1 := by
  induction k with
  | zero => rfl
  | succ k ih => rw [passedIds, List.length_cons, ih]

theorem passed_ids_announce (hk : k ≤ 2 ^ 26) : ∀ id ∈ passedIds k, Announces id := by
  induction k with
  | zero =>
      intro id hid
      rw [List.mem_singleton.mp hid]
      exact announces_zero
  | succ k ih =>
      intro id hid
      rcases List.mem_cons.mp hid with rfl | hid
      · exact chunk_id_announces (by omega)
      · exact ih (by omega) id hid

theorem passed_ids_origin (hk : k ≤ 2 ^ 26) : ∀ id ∈ passedIds k, (Msg.finish id).origin ≤ k := by
  induction k with
  | zero =>
      intro id hid
      rw [List.mem_singleton.mp hid]
      decide
  | succ k ih =>
      intro id hid
      rcases List.mem_cons.mp hid with rfl | hid
      · have horigin : (Msg.finish (chunkId 0 k)).origin = k :=
          chunk_id_origin (by decide) (by omega)
        omega
      · exact Nat.le_succ_of_le (ih (by omega) id hid)

/-- All of them have further to go than the next rank. -/
theorem sent_on_passed_ids (hk : k + 1 < n) (hle : k ≤ 2 ^ 26) :
    sentOn n k (passedIds k) = passedIds k := by
  rw [sentOn, List.filter_eq_self]
  intro id hid
  have horigin := passed_ids_origin hle id hid
  rw [succ_eq (by omega), if_neg (Nat.ne_of_lt hk)]
  have hne : (Msg.finish id).origin ≠ k + 1 := by omega
  simpa using hne

/-- The insertion of one byte. -/
theorem insert_step {sequence : Nat} (hn : 1 < n) (hopen : (s.members r).locallyFinished = false) :
    step n (.insert r sequence ⟨[], .singleton .host 0⟩ .host) s =
      .ok ((s.logInsertion r ⟨sequence, [], [0]⟩).put r { s.members r with
        nlocalInsertions := ((s.members r).nlocalInsertions + 1) % 2 ^ 32
        inserted := (s.members r).inserted ++
          [.fromPackedData sequence r none ⟨[], .singleton .host 0⟩] }) := by
  have hsend : MemoryType.host ∈ addressableMemoryTypes := by decide
  simp [step, AllGather.insert, hn, insertChunk, hopen, Chunk.fromPackedData, Buffer.singleton,
    hsend, bind, Except.bind, pure, Except.pure]

/-- What is inserted on the rank that does not finish. -/
def kept : Insertion := ⟨0, [], [0]⟩

/-- The members of the rank that does not finish. -/
def keeper (m : Nat) : Members :=
  { Members.make (m + 2) with
    nlocalInsertions := 1
    inserted := [.fromPackedData 0 m none ⟨[], .singleton .host 0⟩] }

/-- The members of the last rank when it has finished. -/
def waiter (m : Nat) : Members :=
  { Members.make (m + 2) with finishCounter := m + 1, locallyFinished := true }

/-- Of `m + 2` ranks, the last one and the first `k` have finished, and the finish messages have
come to the rank `k`. -/
structure Passed (m k : Nat) (s : Ranks) : Prop where
  reachable : (system (m + 2)).Reachable s
  number : s.number = fun _ => 0
  insertions : s.insertions = fun e q => if e = 0 ∧ q = m then [kept] else []
  fresh : ∀ q, k ≤ q → q < m → s.members q = .make (m + 2)
  keeper : s.members m = keeper m
  waiter : s.members (m + 1) = waiter m
  clear : ∀ q, k ≤ q → q ≤ m → s.comm.metadata (q, q + 1) = .empty
  incoming : Incoming s.comm (pred (m + 2) k, k) (passedIds k)

/-- The last rank has finished. -/
theorem passed_zero (hm : m + 1 = 2 ^ 26) : ∃ s, Passed m 0 s := by
  have hstep : (system (m + 2)).step (.initial (m + 2))
      (.insert m 0 ⟨[], .singleton .host 0⟩ .host)
      (((Ranks.initial (m + 2)).logInsertion m kept).put m (keeper m)) :=
    ⟨(by omega : m < m + 2), insert_step (by omega) rfl⟩
  have hzero : chunkId 0 (m + 1) = 0 := by
    rw [hm]
    rfl
  have hid : Announces (chunkId 0 (m + 1)) := by
    rw [hzero]
    exact announces_zero
  have hne : m + 1 ≠ m := Nat.succ_ne_self m
  have hfresh : (((Ranks.initial (m + 2)).logInsertion m kept).put m (keeper m)).members (m + 1) =
      .make (m + 2) := Function.update_of_ne hne _ _
  have hsucc : succ (m + 2) (m + 1) = 0 := Nat.mod_self _
  obtain ⟨s, a', hs, hmembers, ha', hnumber, hinsertions, hpasses⟩ :=
    Reachable.finish (by omega : 1 < m + 2) (by omega : m + 1 < m + 2)
      ((System.Reachable.of_init rfl).next hstep) (by rw [hfresh]; rfl) (by rw [hfresh]; rfl) rfl
      (by rw [hfresh]; rfl) (by rw [hfresh]; rfl) (by rw [hfresh]; rfl) hid
      (List.forall_mem_nil Announces) rfl (by rw [hfresh]; simp [Members.make]; omega)
  refine ⟨s, hs, hnumber, ?_, fun q _ hq => ?_, ?_, ?_, fun q _ hq => ?_, ?_⟩
  · rw [hinsertions]
    rfl
  · rw [hmembers, Function.update_of_ne (by omega)]
    exact Function.update_of_ne (by omega) _ _
  · rw [hmembers, Function.update_of_ne hne.symm]
    exact Function.update_self ..
  · rw [hmembers, Function.update_self, ha', hfresh]
    simp [waiter, isDone, Members.make]
    omega
  · exact hpasses.kept _ (ne_of_apply_ne Prod.fst (by show q ≠ m + 1; omega)) (.inr rfl)
  · have hpred : pred (m + 2) 0 = m + 1 := by
      rw [← hsucc, pred_succ (by omega)]
    have hsent := hpasses.sent
    rw [hsucc] at hsent
    rw [Incoming, hpred, hsent, hzero]
    rfl

/-- The next rank finishes. -/
theorem Passed.next (hm : m + 1 = 2 ^ 26) (hk : k < m) (h : Passed m k s) :
    ∃ s', Passed m (k + 1) s' := by
  have hn : 1 < m + 2 := by omega
  have hr : k < m + 2 := by omega
  have hle : k ≤ 2 ^ 26 := by omega
  have hsucc : succ (m + 2) k = k + 1 := by
    rw [succ_eq hr, if_neg (by omega)]
  have hpred : pred (m + 2) (k + 1) = k := by
    rw [← hsucc, pred_succ hr]
  have hfresh := h.fresh k (Nat.le_refl k) hk
  obtain ⟨s', a', hs', hmembers, -, hnumber, hinsertions, hpasses⟩ :=
    Reachable.finish hn hr h.reachable (by rw [hfresh]; rfl) (by rw [hfresh]; rfl)
      (congrFun h.number k) (by rw [hfresh]; rfl) (by rw [hfresh]; rfl) (by rw [hfresh]; rfl)
      (chunk_id_announces (by omega)) (passed_ids_announce hle) h.incoming
      (by rw [hfresh, length_passed_ids]; simp [Members.make]; omega)
  rw [sent_on_passed_ids (by omega) hle] at hpasses
  refine ⟨s', hs', hnumber.trans h.number, hinsertions.trans h.insertions, fun q hle hq => ?_, ?_,
    ?_, fun q hle hq => ?_, ?_⟩
  · rw [hmembers, Function.update_of_ne (by omega)]
    exact h.fresh q (by omega) hq
  · rw [hmembers, Function.update_of_ne (by omega)]
    exact h.keeper
  · rw [hmembers, Function.update_of_ne (by omega)]
    exact h.waiter
  · rw [hpasses.kept (q, q + 1) (ne_of_apply_ne Prod.fst (by show q ≠ k; omega))
      (.inl (ne_of_apply_ne Prod.snd (by show q + 1 ≠ k; omega)))]
    exact h.clear q (by omega) hq
  · have hsent := hpasses.sent
    rw [hsucc, h.clear k (Nat.le_refl k) (Nat.le_of_lt hk)] at hsent
    rw [Incoming, hpred, hsent]
    rfl

/-- The finish messages have come to the rank that does not finish. -/
theorem passed_all (hm : m + 1 = 2 ^ 26) : ∃ s, Passed m m s := by
  have hsteps : ∀ k ≤ m, ∃ s, Passed m k s := by
    intro k
    induction k with
    | zero => exact fun _ => passed_zero hm
    | succ k ih =>
        intro hk
        obtain ⟨s, hs⟩ := ih (Nat.le_of_succ_le hk)
        exact hs.next hm hk
  exact hsteps m (Nat.le_refl m)

/-- The last rank is done, while the rank before it has not finished. -/
theorem done_early (hm : m + 1 = 2 ^ 26) :
    ∃ s, (system (m + 2)).Reachable s ∧ s.number = (fun _ => 0) ∧
      s.insertions = (fun e q => if e = 0 ∧ q = m then [kept] else []) ∧
      (s.members m).locallyFinished = false ∧ needsMore (s.members (m + 1)) = false ∧
      (s.members (m + 1)).canExtract = true ∧ (s.members (m + 1)).forExtraction = [] := by
  obtain ⟨s, hs⟩ := passed_all hm
  have hn : 1 < m + 2 := by omega
  have hids := passed_ids_announce (k := m) (by omega)
  have hsucc : succ (m + 2) m = m + 1 := by
    rw [succ_eq (by omega), if_neg (by omega)]
  have hpred : pred (m + 2) (m + 1) = m := by
    rw [← hsucc, pred_succ (by omega)]
  have hkeep : sendReady (m + 2) m 0 (fun _ => false) (s.members m, s.comm) =
      .ok (keeper m, s.comm) := by
    rw [hs.keeper]
    rfl
  obtain ⟨s₁, a₁, hs₁, hmembers₁, ha₁, hnumber₁, hinsertions₁, hpasses⟩ :=
    Reachable.call hn (by omega) hs.reachable (by rw [hs.keeper]; rfl) (congrFun hs.number m) hkeep
      rfl hids hs.incoming (by rw [length_passed_ids]; simp [keeper, Members.make])
  rw [sent_on_passed_ids (by omega) (by omega)] at hpasses
  have hincoming : Incoming s₁.comm (pred (m + 2) (m + 1), m + 1) (passedIds m) := by
    have hsent := hpasses.sent
    rw [hsucc, hs.clear m (Nat.le_refl m) (Nat.le_refl m)] at hsent
    rw [Incoming, hpred, hsent]
    rfl
  have hwaiter : s₁.members (m + 1) = waiter m := by
    rw [hmembers₁, Function.update_of_ne (Nat.succ_ne_self m)]
    exact hs.waiter
  have hwait : sendReady (m + 2) (m + 1) 0 (fun _ => false) (s₁.members (m + 1), s₁.comm) =
      .ok (waiter m, s₁.comm) := by
    rw [hwaiter]
    rfl
  obtain ⟨s₂, a₂, hs₂, hmembers₂, ha₂, hnumber₂, hinsertions₂, -⟩ :=
    Reachable.call hn (by omega) hs₁ (by rw [hwaiter]; rfl)
      ((congrFun hnumber₁ _).trans (congrFun hs.number _)) hwait rfl hids hincoming
      (by rw [length_passed_ids]; simp [waiter, Members.make])
  refine ⟨s₂, hs₂, hnumber₂.trans (hnumber₁.trans hs.number),
    hinsertions₂.trans (hinsertions₁.trans hs.insertions), ?_, ?_, ?_, ?_⟩
  · rw [hmembers₂, Function.update_of_ne (Nat.succ_ne_self m).symm, hmembers₁,
      Function.update_self, ha₁]
    rfl
  · rw [hmembers₂, Function.update_self, ha₂]
    simp [needsMore, Members.heard, waiter, Members.make, length_passed_ids]
    omega
  · rw [hmembers₂, Function.update_self, ha₂]
    simp [isDone, Members.heard, waiter, Members.make, length_passed_ids]
  · rw [hmembers₂, Function.update_self, ha₂]
    rfl

/-- With more than `2 ^ 26` ranks a rank can be done without a contribution. -/
theorem not_gathers_beyond :
    ∃ s, (system (2 ^ 26 + 1)).Reachable s ∧ ValidInsertions (2 ^ 26 + 1) s ∧
      (s.members (2 ^ 26)).canExtract = true ∧ ¬ Gathered (2 ^ 26 + 1) s (2 ^ 26) := by
  obtain ⟨m, hm⟩ : ∃ m, m + 1 = 2 ^ 26 := ⟨2 ^ 26 - 1, by decide⟩
  obtain ⟨s, hs, hnumber, hinsertions, -, -, hcan, hextract⟩ := done_early hm
  rw [← hm]
  refine ⟨s, hs, valid_single (by decide) hinsertions, hcan, fun hgathered => ?_⟩
  obtain ⟨items, hitems, hperm⟩ := hgathered.extraction
  rw [hextract] at hitems
  obtain rfl := List.forall₂_nil_left_iff.mp hitems
  have hmem : Insertion.item m kept ∈ contributions (m + 1 + 1) s (s.number (m + 1)) := by
    rw [contributions, hinsertions, hnumber]
    exact List.mem_flatMap.mpr ⟨m, List.mem_range.mpr (by omega), by simp⟩
  exact List.not_mem_nil (hperm.symm.subset hmem)

/-! ## Identifiers and counters that do not suffice -/

/-- When the metadata loop has stopped, as many messages were sent as the others put in. -/
theorem Separate.length_eq {e : Nat} (h : Separate n s r) (hstopped : Stopped s e r) :
    ((s.comm.metadata (pred n r, r)).sent.filter fun x => x.1 = e).length =
      (union (produced s e) (others n r)).length := by
  obtain ⟨msgs, hconsumed⟩ := h.consumed e hstopped
  have hsent := congrArg List.length hconsumed.sent.metadata
  rw [List.length_map, List.length_map] at hsent
  exact hsent.trans hconsumed.all.length_eq

/-- The rank 0 inserts a chunk whose sequence number does not fit: it names the rank 1, which sends
it back. -/
def farSequence : List Label :=
  [.insert 0 (2 ^ 38) ⟨[], .singleton .host 0⟩ .host, .eventLoop 0 { settled with sent := [] },
    .eventLoop 1 { settled with received := [0], sent := [] }, .insertFinished 1,
    .eventLoop 1 { settled with sent := [] }, .eventLoop 0 { settled with sent := [] }]

theorem far_sequence_comes_back :
    ∃ s, (system 2).Reachable s ∧ (∀ e, ∀ r < 2, (s.insertions e r).length < 2 ^ 32) ∧
      ¬ Separate 2 s 0 := by
  obtain ⟨s, hrun, hnumber, hmore, hsent, hunion, hinsertions⟩ :
      ∃ s, run (step 2) farSequence (.initial 2) = .ok s ∧ s.number 0 = 0 ∧
        needsMore (s.members 0) = false ∧
        ((s.comm.metadata (pred 2 0, 0)).sent.filter fun x => x.1 = 0).length = 2 ∧
        (union (produced s 0) (others 2 0)).length = 1 ∧
        s.insertions = fun e q => if e = 0 ∧ q = 0 then [⟨2 ^ 38, [], [0]⟩] else [] :=
    ⟨_, rfl, rfl, rfl, rfl, rfl, rfl⟩
  refine ⟨s, run_reachable (.of_init rfl) (by decide) hrun, fun e r _ => ?_, fun hseparate => ?_⟩
  · rw [hinsertions]
    dsimp only
    split <;> simp
  · have hlength := hseparate.length_eq (.inr ⟨hnumber.symm, hmore⟩)
    rw [hsent, hunion] at hlength
    cases hlength

/-- The chunk that is inserted again and again, and never ready. -/
def pending : Chunk := .fromPackedData 0 0 none ⟨[], .singleton .host 0⟩

/-- The rank 0 of two has inserted `k` chunks. -/
structure Filled (k : Nat) (s : Ranks) : Prop where
  reachable : (system 2).Reachable s
  number : s.number = fun _ => 0
  comm : s.comm = .empty
  insertions : s.insertions = fun e q => if e = 0 ∧ q = 0 then List.replicate k kept else []
  inserting : s.members 0 = { Members.make 2 with
    nlocalInsertions := k % 2 ^ 32, inserted := List.replicate k pending }
  other : s.members 1 = .make 2

theorem Filled.next (h : Filled k s) : ∃ s', Filled (k + 1) s' := by
  have hopen : (s.members 0).locallyFinished = false := by
    rw [h.inserting]
    rfl
  have hstep : (system 2).step s (.insert 0 0 ⟨[], .singleton .host 0⟩ .host) _ :=
    ⟨(by decide : 0 < 2), insert_step (by decide) hopen⟩
  refine ⟨_, h.reachable.next hstep, h.number, h.comm, ?_, ?_, ?_⟩
  · funext e q
    simp only [Ranks.put, Ranks.logInsertion, h.number, h.insertions]
    split
    · rw [List.replicate_succ']
      rfl
    · rfl
  · simp only [Ranks.put, Ranks.logInsertion, Function.update_self, h.inserting]
    rw [List.replicate_succ']
    simp
    rfl
  · simp only [Ranks.put, Ranks.logInsertion]
    rw [Function.update_of_ne (by decide)]
    exact h.other

theorem filled_any (k : Nat) : ∃ s, Filled k s := by
  induction k with
  | zero =>
      refine ⟨.initial 2, .of_init rfl, rfl, rfl, ?_, rfl, rfl⟩
      funext e q
      simp [Ranks.initial]
  | succ k ih =>
      obtain ⟨s, hs⟩ := ih
      exact hs.next

/-- The chunks stay, and the finish message goes first. -/
theorem extract_ready_pending (k : Nat) :
    extractReady (fun _ => false) (List.replicate k pending ++ [.fromEmpty 0 0 none]) =
      ([.fromEmpty 0 0 none], List.replicate k pending) := by
  induction k with
  | zero => rfl
  | succ k ih =>
      have hkeep : pending.isReady false = false := rfl
      rw [List.replicate_succ, List.cons_append, extractReady, ih, hkeep]
      rfl

/-- The finish message of `2 ^ 32` insertions announces none of them. -/
theorem wrapped_counter_stops :
    ∃ s, (system 2).Reachable s ∧ (∀ e r, ∀ y ∈ s.insertions e r, y.sequence < 2 ^ 38) ∧
      ¬ Separate 2 s 1 := by
  obtain ⟨s, hs⟩ := filled_any (2 ^ 32)
  have hid : Announces (chunkId 0 0) := chunk_id_announces (by decide)
  have hcounter : (s.members 0).nlocalInsertions = 0 := by
    rw [hs.inserting]
    exact Nat.mod_self _
  have hready : extractReady (fun _ => false) ((s.members 0).inserted ++ [.fromEmpty 0 0 none]) =
      ([.fromEmpty 0 0 none], (s.members 0).inserted) := by
    rw [hs.inserting]
    exact extract_ready_pending (2 ^ 32)
  obtain ⟨s₁, a₁, hs₁, hmembers₁, ha₁, hnumber₁, hinsertions₁, hpasses₁⟩ :=
    Reachable.finish (by decide) (by decide : 0 < 2) hs.reachable (by rw [hs.inserting]; rfl)
      (by rw [hs.inserting]; rfl) (congrFun hs.number 0) hcounter hready
      (by rw [hs.inserting]; rfl) hid (List.forall_mem_nil Announces) (by rw [hs.comm]; rfl)
      (by rw [hs.inserting]; decide)
  have hmembers : s₁.members 1 = .make 2 := by
    rw [hmembers₁, Function.update_of_ne (by decide)]
    exact hs.other
  have hsent : s₁.comm.metadata (pred 2 1, 1) = ⟨finishes [chunkId 0 0], []⟩ := by
    refine hpasses₁.sent.trans ?_
    rw [hs.comm]
    rfl
  have hsend : sendReady 2 1 0 (fun _ => false) (s₁.members 1, s₁.comm) =
      .ok (.make 2, s₁.comm) := by
    rw [hmembers]
    rfl
  have hincoming : Incoming s₁.comm (pred 2 1, 1) [chunkId 0 0] := by
    rw [Incoming, hsent]
    rfl
  obtain ⟨s₂, a₂, hs₂, hmembers₂, ha₂, hnumber₂, hinsertions₂, hpasses₂⟩ :=
    Reachable.call (by decide) (by decide) hs₁ (by rw [hmembers]; rfl)
      (by rw [hnumber₁, hs.number]) hsend rfl (by simpa using hid) hincoming (by decide)
  have hinsertions := hinsertions₂.trans (hinsertions₁.trans hs.insertions)
  refine ⟨s₂, hs₂, fun e r y hy => ?_, fun hseparate => ?_⟩
  · rw [hinsertions] at hy
    dsimp only at hy
    split at hy
    · rw [List.eq_of_mem_replicate hy]
      decide
    · cases hy
  · have hstopped : Stopped s₂ 0 1 := by
      refine .inr ⟨by rw [hnumber₂, hnumber₁, hs.number], ?_⟩
      rw [hmembers₂, Function.update_self, ha₂]
      rfl
    have hlength := hseparate.length_eq hstopped
    have hothers : others 2 1 = [0] := rfl
    have hentry : s₂.insertions 0 0 = List.replicate (2 ^ 32) kept := by
      rw [hinsertions]
      exact if_pos ⟨rfl, rfl⟩
    rw [hpasses₂.received, hsent, hothers, union, List.flatMap_singleton, produced, producedBy,
      hentry, List.length_append, List.length_map, List.length_replicate] at hlength
    have hone : ((finishes [chunkId 0 0]).filter fun x => x.1 = 0).length = 1 := rfl
    have htotal := hlength.symm.trans hone
    omega

/-- More than `2 ^ 26` ranks, sequence numbers of more than 38 bits or `2 ^ 32` insertions on a rank
mix up what an AllGather receives. -/
theorem not_reuses_beyond :
    (∃ s, (system (2 ^ 26 + 1)).Reachable s ∧ ValidInsertions (2 ^ 26 + 1) s ∧
      ¬ Separate (2 ^ 26 + 1) s (2 ^ 26)) ∧
    (∃ s, (system 2).Reachable s ∧ (∀ e, ∀ r < 2, (s.insertions e r).length < 2 ^ 32) ∧
      ¬ Separate 2 s 0) ∧
    ∃ s, (system 2).Reachable s ∧ (∀ e r, ∀ y ∈ s.insertions e r, y.sequence < 2 ^ 38) ∧
      ¬ Separate 2 s 1 := by
  refine ⟨?_, far_sequence_comes_back, wrapped_counter_stops⟩
  obtain ⟨m, hm⟩ : ∃ m, m + 1 = 2 ^ 26 := ⟨2 ^ 26 - 1, by decide⟩
  obtain ⟨s, hs, hnumber, hinsertions, hopen, hmore, -, -⟩ := done_early hm
  rw [← hm]
  refine ⟨s, hs, valid_single (by decide) hinsertions, fun hseparate => ?_⟩
  obtain ⟨msgs, hconsumed⟩ := hseparate.consumed 0 (.inr ⟨by rw [hnumber], hmore⟩)
  have hfinished := hconsumed.finished m (by omega) (Nat.succ_ne_self m).symm
  rw [finishedIn, hnumber, hopen] at hfinished
  cases hfinished

end Rapidsmpf.AllGather
