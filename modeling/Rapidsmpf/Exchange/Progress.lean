import Rapidsmpf.Exchange.Link

/-!
# One call of `progress`

`progress_keeps`: whatever arrives, whichever allocations fail or are forced, whichever buffers
are ready and whichever receives are reported complete, a `progress` call that returns keeps the
receiver's record of every peer faithful. The proof follows the source: a lemma for each loop
body, a lemma for each loop.
-/

namespace Rapidsmpf.Exchange

open Protocol Fallible

/-- What the exchange holds of the peer `q`, with `out` as the list of messages handed over and
not yet returned by `recv`, and `delivered` what `recv` returned before. -/
def peerOf (r q : Rank) (delivered : List (Bytes × Bytes)) (out : List Message) (s : State) :
    Peer where
  metadata := s.2.metadata (q, r)
  gpuData := s.2.gpuData (q, r)
  received := s.1.peerReceived q
  expected := s.1.peerExpected q
  terminated := s.1.peerTerminated q
  incoming := s.1.incomingMessages q
  transit := s.1.inTransitMessages q
  futures := s.1.inTransitFutures
  out := delivered ++ (out.filter (fun m => m.peerRank = q)).map Message.content

/-- The receiver's side of an exchange: its record of every peer is faithful, and it has no
messages from itself. -/
structure Receiver (i : Instance) (h : Rank → List Event)
    (delivered : Rank → List (Bytes × Bytes)) (out : List Message) (s : State) : Prop where
  peer : ∀ q, q < i.nranks → q ≠ i.rank →
    (peerOf i.rank q (delivered q) out s).Ok q i.stamp (h q)
  incoming_self : s.1.incomingMessages i.rank = []
  transit_self : s.1.inTransitMessages i.rank = []

/-- What the steps of `progress` before its last one leave alone: the sending side, the messages
received earlier, and the channels to other ranks. -/
structure Frame (r : Rank) (s s' : State) : Prop where
  finished : s'.1.finished = s.1.finished
  messagesSentTo : s'.1.messagesSentTo = s.1.messagesSentTo
  nextMessageId : s'.1.nextMessageId = s.1.nextMessageId
  receivedMessages : s'.1.receivedMessages = s.1.receivedMessages
  metadata : ∀ k : Rank × Rank, k.2 ≠ r → s'.2.metadata k = s.2.metadata k
  gpuData : ∀ k : Rank × Rank, k.2 ≠ r → s'.2.gpuData k = s.2.gpuData k

theorem Frame.refl (r : Rank) (s : State) : Frame r s s :=
  ⟨rfl, rfl, rfl, rfl, fun _ _ => rfl, fun _ _ => rfl⟩

theorem Frame.trans {r : Rank} {s t u : State} (h : Frame r s t) (h' : Frame r t u) :
    Frame r s u where
  finished := h'.finished.trans h.finished
  messagesSentTo := h'.messagesSentTo.trans h.messagesSentTo
  nextMessageId := h'.nextMessageId.trans h.nextMessageId
  receivedMessages := h'.receivedMessages.trans h.receivedMessages
  metadata := fun k hk => (h'.metadata k hk).trans (h.metadata k hk)
  gpuData := fun k hk => (h'.gpuData k hk).trans (h.gpuData k hk)

/-! ## Receive buffers -/

/-- Only the allocation bookkeeping differs. -/
def SameButAllocation (st st' : TagExchange) : Prop :=
  ∃ waiting total stall, st' = { st with
    numAwaitingBuffer := waiting
    totalAwaitingBuffer := total
    allocationStallStart := stall }

variable {n : Nat} {env : Env n} {i : Instance} {h : Rank → List Event}
  {delivered : Rank → List (Bytes × Bytes)} {out : List Message}

theorem try_attach_spec {point : AllocationPoint} {mode : AllocationMode} {m m' : TagMessage}
    {st st' : TagExchange}
    (hok : tryAttachReceiveBuffer env point mode m st = .ok (some (m', st'))) :
    Attached m m' ∧ m'.arrival = m.arrival ∧ SameButAllocation st st' := by
  unfold tryAttachReceiveBuffer at hok
  split at hok
  · cases hok
  · rename_i hwait
    have hpos : 0 < m.expectedPayloadSize := by
      simp only [Decidable.not_not, TagMessage.isAwaitingBuffer, Bool.and_eq_true,
        decide_eq_true_eq] at hwait
      exact hwait.1
    split at hok
    · split at hok <;> cases hok
    · simp only [pure, Except.pure, Except.ok.injEq, Option.some.injEq, Prod.mk.injEq] at hok
      obtain ⟨rfl, rfl⟩ := hok
      exact ⟨Or.inr ⟨hpos, rfl, rfl, rfl, rfl⟩, rfl, _, _, _, rfl⟩

theorem await_buffer_spec {m m' : TagMessage} {st st' : TagExchange}
    (hok : awaitBuffer env m st = .ok (m', st')) :
    Attached m m' ∧ SameButAllocation st st' := by
  simp only [awaitBuffer, bind_eq_ok] at hok
  obtain ⟨⟨m₁, st₁⟩, hfirst, hlast⟩ := hok
  have hmid : Attached m m₁ ∧ SameButAllocation st st₁ := by
    split at hfirst
    · cases htry : tryAttachReceiveBuffer env .receiveMetadata .mayFail m { st with
          numAwaitingBuffer := Function.update st.numAwaitingBuffer m.message.peerRank
            (st.numAwaitingBuffer m.message.peerRank + 1)
          totalAwaitingBuffer := st.totalAwaitingBuffer + 1 } with
      | error err => simp [htry, Functor.map, Except.map] at hfirst
      | ok res =>
          simp only [htry, Functor.map, Except.map, Except.ok.injEq] at hfirst
          cases res with
          | none =>
              cases hfirst
              exact ⟨Or.inl rfl, _, _, _, rfl⟩
          | some pair =>
              obtain ⟨m₂, st₂⟩ := pair
              cases hfirst
              obtain ⟨hatt, _, a, b, c, rfl⟩ := try_attach_spec htry
              exact ⟨hatt, a, b, c, rfl⟩
    · cases hfirst
      exact ⟨Or.inl rfl, _, _, _, rfl⟩
  obtain ⟨hatt, a, b, c, rfl⟩ := hmid
  split at hlast
  · cases hlast
    exact ⟨hatt, _, _, _, rfl⟩
  · cases hlast
    exact ⟨hatt, _, _, _, rfl⟩

/-! ## Receiving metadata -/

/-- Taking a metadata message of the peer `q` does not concern the other peers. -/
theorem Receiver.taken {st st' : TagExchange} {comm : Comm} {q : Rank} (hne : q ≠ i.rank)
    (hr : Receiver i h delivered out (st, comm))
    (hsame : ∀ p, p ≠ q → st'.peerReceived p = st.peerReceived p
      ∧ st'.peerExpected p = st.peerExpected p ∧ st'.peerTerminated p = st.peerTerminated p
      ∧ st'.incomingMessages p = st.incomingMessages p)
    (htransit : st'.inTransitMessages = st.inTransitMessages)
    (hfutures : st'.inTransitFutures = st.inTransitFutures)
    (hq : (peerOf i.rank q (delivered q) out
      (st', comm.onMetadata (q, i.rank) (Channel.post i.stamp))).Ok q i.stamp (h q)) :
    Receiver i h delivered out (st', comm.onMetadata (q, i.rank) (Channel.post i.stamp)) := by
  refine ⟨fun p hp hpne => ?_, ?_, ?_⟩
  · by_cases hpq : p = q
    · subst hpq
      exact hq
    · obtain ⟨h1, h2, h3, h4⟩ := hsame p hpq
      simpa [peerOf, h1, h2, h3, h4, htransit, hfutures, Comm.onMetadata,
        Function.update_of_ne, hpq] using hr.peer p hp hpne
  · rw [(hsame i.rank (Ne.symm hne)).2.2.2]
    exact hr.incoming_self
  · rw [htransit]
    exact hr.transit_self

theorem Frame.taken {st st' : TagExchange} {comm : Comm} {q r e : Nat}
    (h1 : st'.finished = st.finished) (h2 : st'.messagesSentTo = st.messagesSentTo)
    (h3 : st'.nextMessageId = st.nextMessageId)
    (h4 : st'.receivedMessages = st.receivedMessages) :
    Frame r (st, comm) (st', comm.onMetadata (q, r) (Channel.post e)) := by
  refine ⟨h1, h2, h3, h4, fun k hk => ?_, fun k _ => rfl⟩
  exact Function.update_of_ne (fun hkq => hk (by rw [hkq])) _ _

/-- The loop over the metadata messages of one peer whose marker has not been received. -/
theorem receive_from_keeps (hev : ∀ q, q < i.nranks → q ≠ i.rank → Events (h q)) {q : Rank}
    (hq : q < i.nranks) (hne : q ≠ i.rank) {arrived : Nat} {s s' : State}
    (hok : receiveFrom i env q arrived s = .ok s') (hopen : s.1.peerTerminated q = false)
    (hr : Receiver i h delivered out s) :
    Frame i.rank s s' ∧ Receiver i h delivered out s' := by
  induction arrived generalizing s with
  | zero =>
      cases hok
      exact ⟨Frame.refl _ _, hr⟩
  | succ arrived ih =>
      obtain ⟨st, comm⟩ := s
      simp only [receiveFrom] at hok
      cases hrecv : comm.recvFrom i q with
      | none =>
          simp only [hrecv] at hok
          cases hok
          exact ⟨Frame.refl _ _, hr⟩
      | some pair =>
          obtain ⟨msg, comm'⟩ := pair
          simp only [hrecv, bind_eq_ok] at hok
          obtain ⟨t, hparse, hok⟩ := hok
          obtain ⟨w, hnext, hw⟩ := Option.map_eq_some_iff.mp hrecv
          simp only [Prod.mk.injEq] at hw
          obtain ⟨rfl, rfl⟩ := hw
          have hpeer := hr.peer q hq hne
          rcases hpeer.receive (hev q hq hne) hopen hnext with
            ⟨id, m, hp, hid, hrec⟩ | ⟨count, hp, hrec⟩
          · -- an application message
            obtain rfl : t = ⟨m.metadata, id, m.payloadSize⟩ :=
              Except.ok.inj (hparse.symm.trans hp)
            rw [if_neg hid, bind_eq_ok] at hok
            obtain ⟨⟨m', st'⟩, hawait, hok⟩ := hok
            have hnew : Records q i.stamp (.app i.stamp id m)
                (newTagMessage q ⟨m.metadata, id, m.payloadSize⟩ st.nextArrival) :=
              ⟨rfl, rfl, rfl, rfl, rfl, fun _ => rfl⟩
            obtain ⟨hatt, a, b, c, rfl⟩ : Attached
                (newTagMessage q ⟨m.metadata, id, m.payloadSize⟩ st.nextArrival) m'
                ∧ SameButAllocation (st.countReceived q) st' := by
              split at hawait
              · exact await_buffer_spec hawait
              · cases hawait
                exact ⟨Or.inl rfl, _, _, _, rfl⟩
            have hstep : Receiver i h delivered out
                (TagExchange.enqueue q m' { st.countReceived q with
                  numAwaitingBuffer := a, totalAwaitingBuffer := b, allocationStallStart := c },
                comm.onMetadata (q, i.rank) (Channel.post i.stamp)) := by
              refine hr.taken hne (fun p hp => ?_) rfl rfl ?_
              · simp [TagExchange.enqueue, TagExchange.countReceived, Function.update_of_ne hp]
              · simpa [peerOf, Comm.onMetadata, TagExchange.enqueue, TagExchange.countReceived]
                  using hrec m' (hnew.attached hatt)
            obtain ⟨hf, hr'⟩ := ih hok hopen hstep
            refine ⟨Frame.trans ?_ hf, hr'⟩
            exact Frame.taken rfl rfl rfl rfl
          · -- the termination marker ends the loop
            obtain rfl : t = ⟨[], terminationSentinel, count⟩ :=
              Except.ok.inj (hparse.symm.trans hp)
            rw [if_pos rfl] at hok
            cases hok
            refine ⟨Frame.taken rfl rfl rfl rfl, hr.taken hne (fun p hp => ?_) rfl rfl ?_⟩
            · simp [TagExchange.terminate, Function.update_of_ne hp]
            · simpa [peerOf, Comm.onMetadata, TagExchange.terminate] using hrec

/-- A peer whose marker was received is done: the marker announces what was received. -/
theorem Receiver.peerDone {s : State} (hr : Receiver i h delivered out s) {q : Rank}
    (hq : q < i.nranks) (hne : q ≠ i.rank) :
    peerDone s.1 q = s.1.peerTerminated q := by
  obtain ⟨_, _, _, _, _, hs⟩ := (hr.peer q hq hne).split
  cases hterm : s.1.peerTerminated q with
  | false => simp [Exchange.peerDone, hterm]
  | true =>
      have : s.1.peerExpected q = s.1.peerReceived q := hs.expected_eq hterm
      simp [Exchange.peerDone, hterm, this]

/-- One iteration of the loop over the peers. -/
theorem receive_peer_keeps (hev : ∀ q, q < i.nranks → q ≠ i.rank → Events (h q)) {q : Rank}
    (hq : q < i.nranks) {s s' : State} (hr : Receiver i h delivered out s)
    (hok : (if q = i.rank ∨ peerDone s.1 q then pure s
      else receiveFrom i env q (env.arrived q) s) = Except.ok s') :
    Frame i.rank s s' ∧ Receiver i h delivered out s' := by
  by_cases hskip : q = i.rank ∨ peerDone s.1 q
  · rw [if_pos hskip] at hok
    cases hok
    exact ⟨Frame.refl _ _, hr⟩
  · rw [if_neg hskip] at hok
    have hne : q ≠ i.rank := fun heq => hskip (Or.inl heq)
    have hopen : s.1.peerTerminated q = false := by
      rw [← hr.peerDone hq hne]
      simpa using fun hd => hskip (Or.inr hd)
    exact receive_from_keeps hev hq hne hok hopen hr

theorem receive_metadata_keeps (hev : ∀ q, q < i.nranks → q ≠ i.rank → Events (h q))
    {s s' : State} (hr : Receiver i h delivered out s)
    (hok : receiveMetadata i env s = .ok s') :
    Frame i.rank s s' ∧ Receiver i h delivered out s' := by
  refine foldlM_invariant (I := fun t => Frame i.rank s t ∧ Receiver i h delivered out t)
    ?_ hok ⟨Frame.refl _ _, hr⟩
  rintro q hq t t' ⟨hf, ht⟩ hstep
  exact (receive_peer_keeps hev (List.mem_range.mp hq) ht hstep).imp hf.trans id

/-! ## Forced allocations -/

/-- Every recorded message names its peer. -/
theorem Records.peerRank_eq {q e : Nat} {xs : List Event} {ms : List TagMessage}
    (hrec : List.Forall₂ (Records q e) xs ms) {m : TagMessage} (hm : m ∈ ms) :
    m.message.peerRank = q := by
  induction hrec with
  | nil => cases hm
  | @cons x m' _ _ hx _ ih =>
      rcases List.mem_cons.mp hm with rfl | hm
      · cases x with
        | marker => exact hx.elim
        | app => exact hx.2.2.2.2.1
      · exact ih hm

theorem Receiver.incoming_peerRank {s : State} (hr : Receiver i h delivered out s) {q : Rank}
    (hq : q < i.nranks) {m : TagMessage} (hm : m ∈ s.1.incomingMessages q) :
    m.message.peerRank = q ∧ q ≠ i.rank := by
  have hne : q ≠ i.rank := by
    rintro rfl
    rw [hr.incoming_self] at hm
    cases hm
  obtain ⟨_, _, _, _, _, hs⟩ := (hr.peer q hq hne).split
  exact ⟨Records.peerRank_eq hs.waiting_records hm, hne⟩

theorem replace_waiting_attached {l : List TagMessage} {m m' : TagMessage}
    (hfind : l.find? TagMessage.isAwaitingBuffer = some m) (ha : Attached m m') :
    List.Forall₂ Attached l (replaceWaiting m' l) := by
  induction l with
  | nil => cases hfind
  | cons x l ih =>
      cases hx : x.isAwaitingBuffer with
      | true =>
          simp only [List.find?_cons, hx, Option.some.injEq] at hfind
          subst hfind
          rw [replaceWaiting, if_pos hx]
          exact .cons ha (List.forall₂_same.mpr fun y _ => Attached.refl y)
      | false =>
          simp only [List.find?_cons, hx] at hfind
          rw [replaceWaiting, if_neg (by simp [hx])]
          exact .cons (Attached.refl x) (ih hfind)

theorem older_eq_some {a b : Option TagMessage} {m : TagMessage} (hm : older a b = some m) :
    a = some m ∨ b = some m := by
  cases a with
  | none => exact Or.inr hm
  | some a =>
      cases b with
      | none => exact Or.inl hm
      | some b =>
          simp only [older] at hm
          split at hm
          · exact Or.inr hm
          · exact Or.inl hm

theorem oldest_waiting_find {st : TagExchange} {m : TagMessage}
    (hold : oldestWaiting i st = some m) :
    ∃ q < i.nranks, (st.incomingMessages q).find? TagMessage.isAwaitingBuffer = some m := by
  have key : ∀ (l : List Rank) (o : Option TagMessage),
      l.foldl (fun oldest q =>
        older oldest ((st.incomingMessages q).find? TagMessage.isAwaitingBuffer)) o = some m →
      o = some m ∨
        ∃ q ∈ l, (st.incomingMessages q).find? TagMessage.isAwaitingBuffer = some m := by
    intro l
    induction l with
    | nil => exact fun o ho => Or.inl ho
    | cons q l ih =>
        intro o ho
        rcases ih _ ho with hcase | ⟨p, hp, hf⟩
        · rcases older_eq_some hcase with hcase | hcase
          · exact Or.inl hcase
          · exact Or.inr ⟨q, by simp, hcase⟩
        · exact Or.inr ⟨p, by simp [hp], hf⟩
  rcases key _ _ hold with hnone | ⟨q, hq, hf⟩
  · cases hnone
  · exact ⟨q, List.mem_range.mp hq, hf⟩

/-- Attaching a buffer to the first waiting message of one peer. -/
theorem Receiver.store_waiting {st st' : TagExchange} {comm : Comm} {q : Rank}
    {m m' : TagMessage} (hr : Receiver i h delivered out (st, comm)) (hq : q < i.nranks)
    (hfind : (st.incomingMessages q).find? TagMessage.isAwaitingBuffer = some m)
    (ha : Attached m m') (hs : SameButAllocation st st') :
    Frame i.rank (st, comm) (storeWaiting m' st', comm)
      ∧ Receiver i h delivered out (storeWaiting m' st', comm) := by
  obtain ⟨a, b, c, rfl⟩ := hs
  obtain ⟨hrank, hne⟩ := hr.incoming_peerRank hq (List.mem_of_find?_eq_some hfind)
  have hrank' : m'.message.peerRank = q := by
    rcases ha with rfl | ⟨_, _, _, _, hp⟩
    · exact hrank
    · exact hp.trans hrank
  refine ⟨⟨rfl, rfl, rfl, rfl, fun _ _ => rfl, fun _ _ => rfl⟩, fun p hp hpne => ?_, ?_, ?_⟩
  · by_cases hpq : p = q
    · subst hpq
      simpa [peerOf, storeWaiting, hrank'] using
        (hr.peer p hp hpne).attach (replace_waiting_attached hfind ha)
    · simpa [peerOf, storeWaiting, hrank', Function.update_of_ne hpq] using hr.peer p hp hpne
  · simpa [storeWaiting, hrank', Function.update_of_ne (Ne.symm hne)] using hr.incoming_self
  · simpa [storeWaiting] using hr.transit_self

theorem force_allocation_keeps {st st' : TagExchange} {comm : Comm}
    (hr : Receiver i h delivered out (st, comm))
    (hok : forceAllocationProgressIfStalled i env st = .ok st') :
    Frame i.rank (st, comm) (st', comm) ∧ Receiver i h delivered out (st', comm) := by
  unfold forceAllocationProgressIfStalled at hok
  split at hok
  · cases hok
    exact ⟨Frame.refl _ _, hr⟩
  · simp only [bind, Except.bind] at hok
    split at hok
    · cases hok
    · rename_i oldest hold
      obtain ⟨q, hq, hfind⟩ := oldest_waiting_find hold
      split at hok
      · cases hok
      · rename_i res htry
        cases res with
        | some pair =>
            obtain ⟨m, st₁⟩ := pair
            cases hok
            obtain ⟨ha, _, hs⟩ := try_attach_spec htry
            exact hr.store_waiting hq hfind ha hs
        | none =>
            simp only at hok
            split at hok
            · cases hok
            · rename_i res' htry'
              cases res' with
              | none =>
                  cases hok
                  exact ⟨Frame.refl _ _, hr⟩
              | some pair =>
                  obtain ⟨m, st₁⟩ := pair
                  cases hok
                  obtain ⟨ha, _, hs⟩ := try_attach_spec htry'
                  refine hr.store_waiting hq hfind ?_ hs
                  rcases ha with rfl | ⟨h0, h1, h2, h3, h4⟩
                  · refine Or.inr ⟨?_, rfl, rfl, rfl, rfl⟩
                    have := List.find?_some hfind
                    simp only [TagMessage.isAwaitingBuffer, Bool.and_eq_true,
                      decide_eq_true_eq] at this
                    exact this.1
                  · exact Or.inr ⟨h0, h1, h2, h3, h4⟩

/-! ## Setting up data receives -/

/-- Messages of the peer `q` handed over are appended to what was handed over from `q`. -/
theorem peerOf_append_self {r q : Rank} {dl : List (Bytes × Bytes)} {done : List Message}
    {s : State} (hdone : ∀ m ∈ done, m.peerRank = q) :
    peerOf r q dl (out ++ done) s
      = { peerOf r q dl out s with
          out := (peerOf r q dl out s).out ++ done.map Message.content } := by
  have hfilter : done.filter (fun m => m.peerRank = q) = done :=
    List.filter_eq_self.mpr fun m hm => by simpa using hdone m hm
  simp only [peerOf, List.filter_append, List.map_append, hfilter, List.append_assoc]

/-- They do not concern other peers. -/
theorem peerOf_append_other {r p q : Rank} {dl : List (Bytes × Bytes)} {done : List Message}
    {s : State} (hdone : ∀ m ∈ done, m.peerRank = q) (hpq : p ≠ q) :
    peerOf r p dl (out ++ done) s = peerOf r p dl out s := by
  have hfilter : done.filter (fun m => m.peerRank = p) = [] :=
    List.filter_eq_nil_iff.mpr fun m hm => by simpa [hdone m hm] using Ne.symm hpq
  simp only [peerOf, List.filter_append, hfilter, List.append_nil]

/-- The receiver while the loop of `setup_data_receives` works on the messages `msgs` of the
source `q`, which it has taken out of `incoming_messages_`. -/
structure Working (i : Instance) (h : Rank → List Event)
    (delivered : Rank → List (Bytes × Bytes)) (out : List Message) (q : Rank)
    (msgs : List TagMessage) (s : State) : Prop where
  this : Peer.Ok q i.stamp (h q) { peerOf i.rank q (delivered q) out s with incoming := msgs }
  others : ∀ p, p < i.nranks → p ≠ i.rank → p ≠ q →
    (peerOf i.rank p (delivered p) out s).Ok p i.stamp (h p)
  transit_self : s.1.inTransitMessages i.rank = []

/-- Posting the payload receive of the first message. -/
theorem post_receive_keeps {q : Rank} (hne : q ≠ i.rank) {m m' : TagMessage}
    {rest : List TagMessage} {s s' : State} (hw : Working i h delivered out q (m :: rest) s)
    (hsize : 0 < m.expectedPayloadSize) (ha : Attached m m')
    (hok : postReceive i q m' s = .ok s') :
    Frame i.rank s s' ∧ s'.1.incomingMessages = s.1.incomingMessages
      ∧ Working i h delivered out q rest s' := by
  have hid : m'.messageId = m.messageId := by
    rcases ha with rfl | ⟨_, hid, _⟩
    · rfl
    · exact hid
  unfold postReceive at hok
  split at hok
  · cases hok
  · rename_i buffer _
    simp only [Comm.postRecv] at hok
    split at hok
    · cases hok
    · rename_i hfresh
      cases hok
      have hnone : s.1.inTransitFutures.lookup m.messageId = none := by
        rw [← hid]
        exact Option.not_isSome_iff_eq_none.mp hfresh
      refine ⟨⟨rfl, rfl, rfl, rfl, fun _ _ => rfl, fun k hk => ?_⟩, rfl, ?_, ?_, ?_⟩
      · exact Function.update_of_ne (fun hkq => hk (by rw [hkq])) _ _
      · have hm' : Attached m { m' with message := { m'.message with data := none } } := by
          rcases ha with rfl | ⟨h0, h1, h2, h3, h4⟩
          · exact Or.inr ⟨hsize, rfl, rfl, rfl, rfl⟩
          · exact Or.inr ⟨h0, h1, h2, h3, h4⟩
        simpa [peerOf, Comm.onGpuData, hid] using
          hw.this.post (b := buffer) rfl hsize hm' hnone
      · intro p hp hpne hpq
        have hold : Peer.Ok p i.stamp (h p) { peerOf i.rank p (delivered p) out s with
            futures := s.1.inTransitFutures ++
              [(m'.messageId, ⟨q, (s.2.gpuData (q, i.rank)).matched, buffer⟩)] } := by
          refine (hw.others p hp hpne hpq).futures fun m hm f hf _ => ?_
          simp only [peerOf] at hf
          rw [List.lookup_append, hf]
          rfl
        simpa [peerOf, Comm.onGpuData, Function.update_of_ne hpq, hpq] using hold
      · simpa [Function.update_of_ne (Ne.symm hne)] using hw.transit_self

/-- The loop over the messages of one source. -/
theorem setup_rank_keeps {q : Rank} (hne : q ≠ i.rank) {msgs left : List TagMessage}
    {completed : List Message} {s s' : State}
    (hok : setupRank i env q msgs s = .ok (completed, left, s'))
    (hw : Working i h delivered out q msgs s) :
    Frame i.rank s s' ∧ s'.1.incomingMessages = s.1.incomingMessages
      ∧ Working i h delivered (out ++ completed) q left s' := by
  induction msgs generalizing out completed with
  | nil =>
      cases hok
      exact ⟨Frame.refl _ _, rfl, by simpa using hw⟩
  | cons m rest ih =>
      simp only [setupRank] at hok
      split at hok
      · rename_i hsize
        rw [bind_eq_ok] at hok
        obtain ⟨attached, hatt, hok⟩ := hok
        cases attached with
        | none =>
            cases hok
            exact ⟨Frame.refl _ _, rfl, by simpa using hw⟩
        | some pair =>
            obtain ⟨m', st⟩ := pair
            -- a buffer is there: freshly attached or from before
            obtain ⟨ha, a, b, c, rfl⟩ : Attached m m' ∧ SameButAllocation s.1 st := by
              split at hatt
              · exact ⟨(try_attach_spec hatt).1, (try_attach_spec hatt).2.2⟩
              · cases hatt
                exact ⟨Attached.refl m, _, _, _, rfl⟩
            have hsize' : 0 < m'.expectedPayloadSize := by
              rcases ha with rfl | ⟨_, _, _, h3, _⟩
              · exact hsize
              · omega
            have hrest : List.Forall₂ Attached (m :: rest) (m' :: rest) :=
              .cons ha (List.forall₂_same.mpr fun y _ => Attached.refl y)
            have hthis := hw.this.attach hrest
            have hatt' : Working i h delivered out q (m' :: rest) ({ s.1 with
                numAwaitingBuffer := a, totalAwaitingBuffer := b, allocationStallStart := c },
                s.2) :=
              ⟨hthis, fun p hp hpne hpq => hw.others p hp hpne hpq, hw.transit_self⟩
            simp only at hok
            split at hok
            · cases hok
              exact ⟨⟨rfl, rfl, rfl, rfl, fun _ _ => rfl, fun _ _ => rfl⟩, rfl,
                by simpa using hatt'⟩
            · rw [bind_eq_ok] at hok
              obtain ⟨t, hpost, hok⟩ := hok
              cases hok
              obtain ⟨hf, hin, hw'⟩ :=
                post_receive_keeps hne hatt' hsize' (Attached.refl m') hpost
              exact ⟨⟨hf.finished, hf.messagesSentTo, hf.nextMessageId, hf.receivedMessages,
                hf.metadata, hf.gpuData⟩, hin, by simpa using hw'⟩
      · rename_i hsize
        split at hok
        · rename_i hempty
          rw [bind_eq_ok] at hok
          obtain ⟨⟨completed', left', t⟩, hrest, hok⟩ := hok
          cases hok
          have hrank : m.message.peerRank = q := by
            obtain ⟨_, _, _, _, _, hs⟩ := hw.this.split
            exact Records.peerRank_eq hs.waiting_records (by simp)
          have hdone : ∀ m' ∈ [m.message], m'.peerRank = q := by simpa using hrank
          have hpass : Working i h delivered (out ++ [m.message]) q rest s := by
            refine ⟨?_, fun p hp hpne hpq => ?_, hw.transit_self⟩
            · rw [peerOf_append_self hdone]
              exact hw.this.pass rfl (by omega) (by simpa [peerOf] using hempty)
            · rw [peerOf_append_other hdone hpq]
              exact hw.others p hp hpne hpq
          obtain ⟨hf, hin, hw'⟩ := ih hrest hpass
          exact ⟨hf, hin, by simpa using hw'⟩
        · cases hok
          exact ⟨Frame.refl _ _, rfl, by simpa using hw⟩

theorem setup_source_keeps {q : Rank} (hq : q < i.nranks) {completed completed' : List Message}
    {s s' : State} (hok : setupSource i env (completed, s) q = .ok (completed', s'))
    (hr : Receiver i h delivered (out ++ completed) s) :
    Frame i.rank s s' ∧ Receiver i h delivered (out ++ completed') s' := by
  simp only [setupSource, bind_eq_ok] at hok
  obtain ⟨⟨done, left, st, comm⟩, hrank, hok⟩ := hok
  cases hok
  by_cases hself : q = i.rank
  · subst hself
    rw [hr.incoming_self] at hrank
    cases hrank
    refine ⟨⟨rfl, rfl, rfl, rfl, fun _ _ => rfl, fun _ _ => rfl⟩, fun p hp hpne => ?_, ?_,
      hr.transit_self⟩
    · simpa [peerOf, Function.update_of_ne hpne] using hr.peer p hp hpne
    · simp
  · obtain ⟨hf, hin, hw⟩ := setup_rank_keeps hself hrank
      ⟨hr.peer q hq hself, fun p hp hpne _ => hr.peer p hp hpne, hr.transit_self⟩
    refine ⟨⟨hf.finished, hf.messagesSentTo, hf.nextMessageId, hf.receivedMessages,
      hf.metadata, hf.gpuData⟩, fun p hp hpne => ?_, ?_, hw.transit_self⟩
    · by_cases hpq : p = q
      · subst hpq
        simpa [peerOf] using hw.this
      · simpa [peerOf, Function.update_of_ne hpq] using hw.others p hp hpne hpq
    · have : st.incomingMessages i.rank = [] := by
        rw [show st.incomingMessages = s.1.incomingMessages from hin]
        exact hr.incoming_self
      simpa [Function.update_of_ne (Ne.symm hself)] using this

theorem setup_data_receives_keeps (hn : n = i.nranks) {completed : List Message} {s s' : State}
    (hok : setupDataReceives i env s = .ok (completed, s'))
    (hr : Receiver i h delivered out s) :
    Frame i.rank s s' ∧ Receiver i h delivered (out ++ completed) s' := by
  simp only [setupDataReceives, bind_eq_ok] at hok
  obtain ⟨st, hforce, hloop⟩ := hok
  obtain ⟨hf, hr'⟩ := force_allocation_keeps hr hforce
  refine foldlM_invariant (I := fun acc : List Message × State =>
    Frame i.rank s acc.2 ∧ Receiver i h delivered (out ++ acc.1) acc.2) ?_ hloop
    ⟨hf, by simpa using hr'⟩
  rintro q hq ⟨done, t⟩ ⟨done', t'⟩ ⟨hft, hrt⟩ hstep
  have hq' : q < i.nranks := by
    rw [← hn]
    exact List.mem_range.mp (env.incoming_perm.mem_iff.mp hq)
  exact (setup_source_keeps hq' hstep hrt).imp hft.trans (fun hr' => hr')

/-! ## Completing data transfers -/

/-- The receiver while the loop of `complete_data_transfers` works on the in-transit messages
`transit` of the source `q` and the remaining futures. -/
structure Completing (i : Instance) (h : Rank → List Event)
    (delivered : Rank → List (Bytes × Bytes)) (out : List Message) (q : Rank)
    (transit : List TagMessage) (futures : List (Nat × Future)) (s : State) : Prop where
  this : Peer.Ok q i.stamp (h q)
    { peerOf i.rank q (delivered q) out s with transit := transit, futures := futures }
  others : ∀ p, p < i.nranks → p ≠ i.rank → p ≠ q →
    Peer.Ok p i.stamp (h p) { peerOf i.rank p (delivered p) out s with futures := futures }

/-- The loop over the in-transit messages of one source. -/
theorem complete_rank_keeps {q : Rank} {transit left : List TagMessage}
    {futures futures' : List (Nat × Future)} {completed : List Message} {s : State}
    (hok : completeRank i env s.2 transit futures = .ok (completed, left, futures'))
    (hc : Completing i h delivered out q transit futures s) :
    Completing i h delivered (out ++ completed) q left futures' s := by
  induction transit generalizing out completed futures with
  | nil =>
      cases hok
      simpa using hc
  | cons m rest ih =>
      simp only [completeRank] at hok
      split at hok
      · split at hok
        · cases hok
        · rename_i f hf
          simp only [bind_eq_ok] at hok
          obtain ⟨buffer, hrel, ⟨done, left', futures''⟩, hrest, hok⟩ := hok
          cases hok
          obtain ⟨rfl, payload, hpay, hdone⟩ := hc.this.complete rfl hf
          have hbytes : (tryMoveToDisk env m buffer).bytes = payload.bytes := by
            have hpay' : (s.2.gpuData (f.src, i.rank)).content? f.position = some payload := hpay
            simp only [Comm.releaseData, hpay'] at hrel
            cases hrel
            unfold tryMoveToDisk
            split <;> rfl
          have hrank : m.message.peerRank = f.src := by
            obtain ⟨_, _, _, _, _, hs⟩ := hc.this.split
            exact Records.peerRank_eq hs.transit_records (by simp)
          have hmsg : ∀ m' ∈ [({ m.message with
              data := some (tryMoveToDisk env m buffer) } : Message)], m'.peerRank = f.src := by
            simpa using hrank
          have hnext : Completing i h delivered (out ++ [{ m.message with
              data := some (tryMoveToDisk env m buffer) }]) f.src rest
              (futures.filter fun g => g.1 ≠ m.messageId) s := by
            refine ⟨?_, fun p hp hpne hpq => ?_⟩
            · rw [peerOf_append_self hmsg]
              simpa [Message.content, hbytes] using hdone
            · rw [peerOf_append_other hmsg hpq]
              refine (hc.others p hp hpne hpq).futures fun m' _ g hg hsrc => ?_
              -- a message of another peer has a future of another source
              have hne : m'.messageId ≠ m.messageId := by
                intro heq
                have : futures.lookup m'.messageId = some g := hg
                rw [heq, hf] at this
                cases this
                exact hpq hsrc.symm
              rw [ListFacts.lookup_filter_ne hne]
              exact hg
          simpa using ih hrest hnext
      · cases hok
        simpa using hc

theorem complete_source_keeps {q : Rank} (hq : q < i.nranks) {completed completed' : List Message}
    {st st' : TagExchange} {comm : Comm}
    (hok : completeSource i env comm (completed, st) q = .ok (completed', st'))
    (hr : Receiver i h delivered (out ++ completed) (st, comm)) :
    Frame i.rank (st, comm) (st', comm)
      ∧ Receiver i h delivered (out ++ completed') (st', comm) := by
  simp only [completeSource, bind_eq_ok] at hok
  obtain ⟨⟨done, left, futures⟩, hrank, hok⟩ := hok
  cases hok
  refine ⟨⟨rfl, rfl, rfl, rfl, fun _ _ => rfl, fun _ _ => rfl⟩, ?_⟩
  by_cases hself : q = i.rank
  · subst hself
    rw [hr.transit_self] at hrank
    cases hrank
    refine ⟨fun p hp hpne => ?_, hr.incoming_self, by simp⟩
    simpa [peerOf, Function.update_of_ne hpne] using hr.peer p hp hpne
  · have hc := complete_rank_keeps (s := (st, comm)) hrank
      ⟨hr.peer q hq hself, fun p hp hpne _ => hr.peer p hp hpne⟩
    refine ⟨fun p hp hpne => ?_, hr.incoming_self, ?_⟩
    · by_cases hpq : p = q
      · subst hpq
        simpa [peerOf] using hc.this
      · simpa [peerOf, Function.update_of_ne hpq] using hc.others p hp hpne hpq
    · simpa [Function.update_of_ne (Ne.symm hself)] using hr.transit_self

theorem complete_data_transfers_keeps (hn : n = i.nranks) {completed : List Message} {s : State}
    {st : TagExchange} (hok : completeDataTransfers i env s = .ok (completed, st))
    (hr : Receiver i h delivered out s) :
    Frame i.rank s (st, s.2) ∧ Receiver i h delivered (out ++ completed) (st, s.2) := by
  unfold completeDataTransfers at hok
  split at hok
  · cases hok
    exact ⟨Frame.refl _ _, by simpa using hr⟩
  · refine foldlM_invariant (I := fun acc : List Message × TagExchange =>
      Frame i.rank s (acc.2, s.2) ∧ Receiver i h delivered (out ++ acc.1) (acc.2, s.2)) ?_ hok
      ⟨Frame.refl _ _, by simpa using hr⟩
    rintro q hq ⟨done, t⟩ ⟨done', t'⟩ ⟨hft, hrt⟩ hstep
    have hq' : q < i.nranks := by
      rw [← hn]
      exact List.mem_range.mp (env.transit_perm.mem_iff.mp hq)
    exact (complete_source_keeps hq' hstep hrt).imp hft.trans (fun hr' => hr')

/-! ## The whole call -/

/-- What `progress` leaves alone: the sending side and the channels to other ranks. -/
structure SenderFrame (r : Rank) (s s' : State) : Prop where
  finished : s'.1.finished = s.1.finished
  messagesSentTo : s'.1.messagesSentTo = s.1.messagesSentTo
  nextMessageId : s'.1.nextMessageId = s.1.nextMessageId
  metadata : ∀ k : Rank × Rank, k.2 ≠ r → s'.2.metadata k = s.2.metadata k
  gpuData : ∀ k : Rank × Rank, k.2 ≠ r → s'.2.gpuData k = s.2.gpuData k

/-- A `progress` call that returns keeps the receiver's record of every peer. -/
theorem progress_keeps (hn : n = i.nranks)
    (hev : ∀ q, q < i.nranks → q ≠ i.rank → Events (h q)) {s s' : State}
    (hok : progress i env s = .ok s') (hr : Receiver i h delivered s.1.receivedMessages s) :
    SenderFrame i.rank s s' ∧ Receiver i h delivered s'.1.receivedMessages s' := by
  simp only [progress, bind_eq_ok] at hok
  obtain ⟨s₁, hmeta, ⟨only, s₂⟩, hsetup, ⟨done, st⟩, hcomplete, hok⟩ := hok
  cases hok
  obtain ⟨hf₁, hr₁⟩ := receive_metadata_keeps hev hr hmeta
  obtain ⟨hf₂, hr₂⟩ := setup_data_receives_keeps hn hsetup hr₁
  obtain ⟨hf₃, hr₃⟩ := complete_data_transfers_keeps hn hcomplete hr₂
  have hf := (hf₁.trans hf₂).trans hf₃
  have hout : st.receivedMessages = s.1.receivedMessages := hf.receivedMessages
  refine ⟨⟨hf.finished, hf.messagesSentTo, hf.nextMessageId, hf.metadata, hf.gpuData⟩, ?_, ?_, ?_⟩
  · intro q hq hne
    simpa [peerOf, cleanupCompletedOperations, hout] using hr₃.peer q hq hne
  · exact hr₃.incoming_self
  · exact hr₃.transit_self

end Rapidsmpf.Exchange
