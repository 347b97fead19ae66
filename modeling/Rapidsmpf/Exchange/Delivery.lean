import Rapidsmpf.Exchange.Chain

/-!
# Delivery and reuse of an `op_id`

What the invariant of `Rapidsmpf.Exchange.Chain` says to a user of the exchange: `recv` returns
the messages of a peer in order and each exactly once, no instance consumes traffic of another
one, and a finished and idle instance has received everything its peers sent to it. The bound on
the number of messages is needed: the message ids run through all of 64 bits, and the id equal to
`termination_sentinel_` makes a message a termination marker.
-/

namespace Rapidsmpf.Exchange

open Protocol Fallible

variable {c : Cluster} {s : Global} {r q : Rank}

/-- What `recv` of the `k`-th exchange of a rank returned from a peer is, at every moment, a
prefix of what the peer sent to it through its `k`-th exchange. -/
theorem delivered_prefix_sent (hs : c.system.Reachable s) (hb : Bounded s) (hr : r < c.nranks)
    (hq : q < c.nranks) (hne : q ≠ r) (k : Nat) : s.delivered r k q <+: s.sent q k r := by
  obtain ⟨h, ha⟩ := reachable_inv hs hb
  rw [← (ha.sender q hq).contents_eq r hr (Ne.symm hne) k]
  rcases Nat.lt_trichotomy k (s.number r) with hk | rfl | hk
  · exact ha.past r q hr hq hne k hk
  · obtain ⟨done, transit, waiting, last, rest, hsplit⟩ := ((ha.receiver r hr).peer q hq hne).split
    have hpre : s.delivered r (s.number r) q <+: contents (s.number r) done :=
      ⟨_, hsplit.out_eq⟩
    refine hpre.trans ?_
    rw [hsplit.eq]
    simp
  · rw [ha.delivered_fresh r k hk q]
    exact List.nil_prefix

/-- Two ranks. -/
def two : Cluster := ⟨2, 0, by decide⟩

/-- A `progress` call of two ranks in which everything sent has arrived and completes at once. -/
def prompt : Env 2 where
  arrived := fun _ => 8
  alloc := fun _ _ _ => some (.empty .host)
  writeDone := fun _ => true
  now := 0
  incomingOrder := [1, 0]
  reported := [0, 1, 2]
  transitOrder := [0, 1]
  movedToDisk := fun _ => false
  sendsCompleted := 8
  incoming_perm := List.Perm.swap 0 1 []
  transit_perm := zero_one_perm

/-- Rank 0 sends a message with and one without payload to rank 1, both ranks finish, and rank 1
receives. -/
def exchangeOnce : List (Rank × Call two.nranks) :=
  [(0, .send [⟨1, [1], some ⟨.host, [7, 8], by decide⟩⟩, ⟨1, [2], none⟩]), (0, .finish),
    (1, .finish), (1, .progress prompt), (1, .recv), (1, .progress prompt), (1, .recv)]

theorem delivered_prefix_sent_two : ∃ s, two.system.Reachable s
    ∧ s.delivered 1 0 0 = [([1], [7, 8]), ([2], [])] ∧ s.delivered 1 0 0 <+: s.sent 0 0 1 := by
  have hrun : two.reaches exchangeOnce
      (fun s => s.delivered 1 0 0 == [([1], [7, 8]), ([2], [])]) = true := by
    decide +kernel
  obtain ⟨s, hs, hb, hdelivered⟩ := exists_of_reaches hrun (by decide)
  exact ⟨s, hs, by simpa using hdelivered,
    delivered_prefix_sent hs hb (by decide) (by decide) (by decide) 0⟩

/-- Receives and messages of one direction are matched within one instance. -/
theorem Peer.Ok.aligned {e : Nat} {h : List Event} {p : Peer} (hp : p.Ok q e h) :
    p.metadata.Aligned ∧ p.gpuData.Aligned := by
  obtain ⟨done, transit, waiting, last, rest, hs⟩ := hp.split
  have hmeta : p.metadata.sent.map Prod.fst
      = p.metadata.taken ++ rest.map Event.stamp := by
    rw [hp.metadata_sent, hs.metadata_taken, hs.eq]
    simp [Function.comp_def]
  have hdata : p.gpuData.sent.map Prod.fst = p.gpuData.taken
      ++ ((waiting ++ last ++ rest).filterMap Event.payload).map Prod.fst := by
    rw [hp.gpuData_sent, hs.gpuData_taken, hs.eq]
    simp
  refine ⟨fun i x t hx ht => ?_, fun i x t hx ht => ?_⟩
  · have hfst : (p.metadata.sent.map Prod.fst)[i]? = some x.1 := by simp [hx]
    rw [hmeta, List.getElem?_append_left (List.getElem?_eq_some_iff.mp ht).1, ht] at hfst
    exact (Option.some.inj hfst).symm
  · have hfst : (p.gpuData.sent.map Prod.fst)[i]? = some x.1 := by simp [hx]
    rw [hdata, List.getElem?_append_left (List.getElem?_eq_some_iff.mp ht).1, ht] at hfst
    exact (Option.some.inj hfst).symm

/-- Instances that share an `op_id` do not consume each other's messages, termination markers or
payloads; and when a finished instance is idle it has received, from every peer, what that peer
sent to it through the same instance, which the peer has finished too. -/
theorem chain_separated (hs : c.system.Reachable s) (hb : Bounded s) :
    (∀ q r, q < c.nranks → r < c.nranks → q ≠ r →
      (s.comm.metadata (q, r)).Aligned ∧ (s.comm.gpuData (q, r)).Aligned)
    ∧ ∀ r, r < c.nranks → (s.exchange r).finished = true →
      isIdle (c.current s r) (s.exchange r) = true → ∀ q, q < c.nranks → q ≠ r →
        s.delivered r (s.number r) q ++ contentsWith q (s.exchange r).receivedMessages
            = s.sent q (s.number r) r
          ∧ (s.number r < s.number q
            ∨ s.number r = s.number q ∧ (s.exchange q).finished = true) := by
  obtain ⟨h, ha⟩ := reachable_inv hs hb
  refine ⟨fun q r hq hr hne => ((ha.receiver r hr).peer q hq hne).aligned, ?_⟩
  intro r hr hfin hidle q hq hne
  obtain ⟨done, count, rest, hsplit⟩ := ha.idle hr hfin hidle hq hne
  have hsender := ha.sender q hq
  have hmem : Event.marker (s.number r) count ∈ h q r := by
    rw [hsplit.eq]
    simp
  constructor
  · have hev : Events (done ++ [.marker (s.number r) count] ++ rest) := by
      simpa [hsplit.eq] using hsender.events r hr (Ne.symm hne)
    have hrest : contents (s.number r) rest = [] :=
      hev.contents_after (closed_append.mpr (Or.inr (closed_marker.mpr rfl)))
    have hout : s.delivered r (s.number r) q ++ contentsWith q (s.exchange r).receivedMessages
        = contents (s.number r) done := hsplit.out_eq
    have hall : contents (s.number r) (h q r) = contents (s.number r) done := by
      rw [hsplit.eq, contents_append, contents_append, contents_marker, hrest]
      simp
    rw [hout, ← hsender.contents_eq r hr (Ne.symm hne), hall]
  · have hle : s.number r ≤ s.number q := hsender.stamp_le r hr (Ne.symm hne) _ hmem
    rcases Nat.lt_or_eq_of_le hle with hlt | heq
    · exact Or.inl hlt
    · have hclosed : Closed (s.number q) (h q r) := heq ▸ ⟨count, hmem⟩
      exact Or.inr ⟨heq, (hsender.closed_iff r hr (Ne.symm hne)).mp hclosed⟩

theorem chain_separated_two : ∃ s, two.system.Reachable s ∧ s.number 1 = 1
    ∧ (s.exchange 1).finished = true ∧ isIdle (two.current s 1) (s.exchange 1) = true
    ∧ s.sent 0 1 1 ≠ []
    ∧ s.delivered 1 (s.number 1) 0 ++ contentsWith 0 (s.exchange 1).receivedMessages
      = s.sent 0 (s.number 1) 1 := by
  have hrun : two.reaches (exchangeOnce ++ [(0, .progress prompt), (1, .next), (0, .next)]
      ++ exchangeOnce) (fun s => s.number 1 == 1 && (s.exchange 1).finished
        && isIdle (two.current s 1) (s.exchange 1) && s.sent 0 1 1 != []) = true := by
    decide +kernel
  obtain ⟨s, hs, hb, hstate⟩ := exists_of_reaches hrun (by decide)
  simp only [Bool.and_eq_true, beq_iff_eq, bne_iff_ne] at hstate
  obtain ⟨⟨⟨hnumber, hfin⟩, hidle⟩, hsent⟩ := hstate
  exact ⟨s, hs, hnumber, hfin, hidle, hsent,
    ((chain_separated hs hb).2 1 (by decide) hfin hidle 0 (by decide) (by decide)).1⟩

/-! ## Running out of ids -/

theorem reach_call {call : Call c.nranks} {s' : Global} (hs : c.system.Reachable s)
    (hr : r < c.nranks) (h : c.call r call s = .ok s') : c.system.Reachable s' :=
  hs.next (show c.system.step s (r, call) s' from ⟨hr, h⟩)

theorem reach_progress {i : Instance} {env : Env c.nranks} {st : TagExchange} {comm : Comm}
    {x : State} (hs : c.system.Reachable s) (hr : r < c.nranks) (hi : c.current s r = i)
    (hst : s.exchange r = st) (hcomm : s.comm = comm) (h : progress i env (st, comm) = .ok x) :
    c.system.Reachable (s.put r x) := by
  subst hi hst hcomm
  have hcall : c.call r (.progress env) s = .ok (s.put r x) := by
    simp only [Cluster.call, h]
    rfl
  exact reach_call hs hr hcall

/-- Three ranks. -/
def three : Cluster := ⟨3, 0, by decide⟩

/-- A message without payload. -/
def plain (dst : Rank) (metadata : Bytes) : Message := ⟨dst, metadata, none⟩

/-- One `progress` call of three ranks that takes at most one message of each peer and sees all
own sends complete. -/
def oneEach : Env 3 where
  arrived := fun _ => 1
  alloc := fun _ _ _ => none
  writeDone := fun _ => true
  now := 0
  incomingOrder := [0, 1, 2]
  reported := []
  transitOrder := [0, 1, 2]
  movedToDisk := fun _ => false
  sendsCompleted := 2 ^ 64
  incoming_perm := .refl _
  transit_perm := .refl _

/-- A state of three ranks in which rank 0 has sent to rank 2 only and draws `next` as its next
id. -/
def sentToTwo (next : Nat) (counts : Rank → Nat) (fire : Nat) (ch : Channel Nat Bytes)
    (sendCount : Rank → Nat → Nat) (sent : Rank → Nat → Rank → List (Bytes × Bytes)) :
    Global where
  comm := ⟨Function.update (fun _ => .empty) (0, 2) ch, fun _ => .empty⟩
  number := fun _ => 0
  exchange := Function.update (fun _ => .initial) 0 { TagExchange.initial with
    messagesSentTo := counts
    nextMessageId := next
    fireAndForget := fire }
  sendCount := sendCount
  sent := sent
  delivered := fun _ _ _ => []

/-- One more message to rank 2. -/
theorem send_to_two (next : Nat) (counts : Rank → Nat) (fire : Nat) (ch : Channel Nat Bytes)
    (sendCount : Rank → Nat → Nat) (sent : Rank → Nat → Rank → List (Bytes × Bytes)) :
    ∃ counts' fire' ch' sendCount' sent', sent' 0 0 1 = sent 0 0 1
      ∧ three.call 0 (.send [plain 2 []]) (sentToTwo next counts fire ch sendCount sent)
        = .ok (sentToTwo ((next + 1) % 2 ^ 64) counts' fire' ch' sendCount' sent') := by
  let s := sentToTwo next counts fire ch sendCount sent
  refine ⟨Function.update counts 2 (counts 2 + 1), fire + 1,
    ch.send 0 (combinedMetadata [] (messageId 0 next) 0), (s.logSent 0 [plain 2 []]).sendCount,
    (s.logSent 0 [plain 2 []]).sent, ?_, ?_⟩
  · simp [s, Global.logSent, sentToTwo, contentsWith, plain]
  · have hsend : send (three.current s 0) [plain 2 []] (s.exchange 0, s.comm) = .ok
        ({ TagExchange.initial with
            messagesSentTo := Function.update counts 2 (counts 2 + 1)
            nextMessageId := (next + 1) % 2 ^ 64
            fireAndForget := fire + 1 }, s.comm.sendMetadata (three.current s 0) 2
          (combinedMetadata [] (messageId 0 next) 0)) := by
      rfl
    simp only [Cluster.call]
    rw [hsend]
    simp [s, sentToTwo, Global.put, Global.logSent, Comm.sendMetadata, Comm.onMetadata,
      three, Cluster.current, bind, Except.bind, pure, Except.pure]
    rfl

/-- Such a state is reached for every id. -/
theorem sent_to_two_reachable (n : Nat) : ∃ counts fire ch sendCount sent,
    sent 0 0 1 = []
      ∧ three.system.Reachable (sentToTwo (n % 2 ^ 64) counts fire ch sendCount sent) := by
  induction n with
  | zero =>
      refine ⟨fun _ => 0, 0, .empty, fun _ _ => 0, fun _ _ _ => [], rfl, .of_init ?_⟩
      simp [sentToTwo, three, Cluster.system, Global.initial, TagExchange.initial]
  | succ n ih =>
      obtain ⟨counts, fire, ch, sendCount, sent, hsent, hreach⟩ := ih
      obtain ⟨counts', fire', ch', sendCount', sent', hsame, hcall⟩ :=
        send_to_two (n % 2 ^ 64) counts fire ch sendCount sent
      refine ⟨counts', fire', ch', sendCount', sent', hsame.trans hsent, ?_⟩
      have hnext : (n % 2 ^ 64 + 1) % 2 ^ 64 = (n + 1) % 2 ^ 64 := by omega
      rw [← hnext]
      exact reach_call hreach (by decide) hcall

/-- With no message waiting there is nothing to set up. -/
theorem setup_data_receives_quiet {n : Nat} {i : Instance} {env : Env n} {st : TagExchange}
    {comm : Comm} (hstall : st.allocationStallStart = none)
    (hin : ∀ q, st.incomingMessages q = []) :
    setupDataReceives i env (st, comm) = .ok ([], (st, comm)) := by
  have hone : ∀ q, setupSource i env ([], (st, comm)) q = .ok ([], (st, comm)) := by
    intro q
    have hupd : Function.update st.incomingMessages q [] = st.incomingMessages := by
      rw [← hin q, Function.update_eq_self]
    simp [setupSource, hin q, setupRank, bind, Except.bind, pure, Except.pure, hupd]
  have hloop : ∀ l : List Rank,
      l.foldlM (setupSource i env) ([], (st, comm)) = .ok ([], (st, comm)) := by
    intro l
    induction l with
    | nil => rfl
    | cons q l ih => simp [List.foldlM_cons, hone q, bind, Except.bind, ih]
  have hforce : forceAllocationProgressIfStalled i env st = .ok st := by
    simp [forceAllocationProgressIfStalled, stalled, hstall, pure, Except.pure]
  simp [setupDataReceives, hforce, bind, Except.bind, hloop]

/-- A `progress` call after which nothing is waiting or in transit only receives metadata. -/
theorem progress_quiet {n : Nat} {i : Instance} {env : Env n} {s : State} {st : TagExchange}
    {comm : Comm} (hmeta : receiveMetadata i env s = .ok (st, comm))
    (hstall : st.allocationStallStart = none) (hin : ∀ q, st.incomingMessages q = [])
    (hfutures : st.inTransitFutures = []) :
    progress i env s = .ok (cleanupCompletedOperations env st, comm) := by
  have hdone : completeDataTransfers i env (st, comm) = .ok ([], st) := by
    simp [completeDataTransfers, hfutures, pure, Except.pure]
  simp [progress, hmeta, setup_data_receives_quiet hstall hin, hdone, bind, Except.bind, pure,
    Except.pure]

/-- A message to rank 1 with five bytes of payload. -/
def lost : Message := ⟨1, [1], some ⟨.host, [0, 0, 0, 0, 0], by decide⟩⟩

/-- The channels after rank 0 sent `lost` under the last id and then a plain message to rank 1. -/
def wrapped (ch : Channel Nat Bytes) : Comm :=
  ((((⟨Function.update (fun _ => .empty) (0, 2) ch, fun _ => .empty⟩ : Comm).sendMetadata
    ⟨3, 0, 0, 0⟩ 1 (combinedMetadata [1] (messageId 0 (2 ^ 64 - 1)) 5)).sendData ⟨3, 0, 0, 0⟩ 1
      ⟨.host, [0, 0, 0, 0, 0], by decide⟩).sendMetadata ⟨3, 0, 0, 0⟩ 1
        (combinedMetadata [2] (messageId 0 ((2 ^ 64 - 1 + 1) % 2 ^ 64)) 0))

/-- Rank 1 takes the message with the last id for a termination marker. -/
theorem progress_last_id (ch : Channel Nat Bytes) :
    progress ⟨3, 1, 0, 0⟩ oneEach (.initial, wrapped ch)
      = .ok (TagExchange.initial.terminate 0 5,
        (wrapped ch).onMetadata (0, 1) (Channel.post 0)) := by
  have hmeta : receiveMetadata ⟨3, 1, 0, 0⟩ oneEach (.initial, wrapped ch)
      = .ok (TagExchange.initial.terminate 0 5,
        (wrapped ch).onMetadata (0, 1) (Channel.post 0)) := by
    rfl
  rw [progress_quiet hmeta rfl (fun _ => rfl) rfl]
  rfl

/-- It hands over the message after it. -/
theorem progress_after_last_id (ch : Channel Nat Bytes) :
    ∃ st, progress ⟨3, 1, 0, 0⟩ oneEach (TagExchange.initial.terminate 0 5,
        (wrapped ch).onMetadata (0, 1) (Channel.post 0))
      = .ok (st, ((wrapped ch).onMetadata (0, 1) (Channel.post 0)).onMetadata (0, 1)
        (Channel.post 0))
      ∧ st.receivedMessages = [⟨0, [2], none⟩] := by
  exact ⟨_, rfl, rfl⟩

/-- Without the bound the message with the last id is dropped and the next one is delivered in its
place. -/
theorem delivered_not_prefix_sent : ∃ (c : Cluster) (s : Global), c.system.Reachable s
    ∧ ∃ r q k, r < c.nranks ∧ q < c.nranks ∧ q ≠ r ∧ ¬ s.delivered r k q <+: s.sent q k r := by
  obtain ⟨counts, fire, ch, sendCount, sent, hsent, hreach⟩ :=
    sent_to_two_reachable (2 ^ 64 - 1)
  obtain ⟨s₁, hsend, hcomm, hother, hnumber, hdelivered, hlog⟩ : ∃ s₁,
      three.call 0 (.send [lost, plain 1 [2]])
        (sentToTwo (2 ^ 64 - 1) counts fire ch sendCount sent) = .ok s₁
      ∧ s₁.comm = wrapped ch ∧ s₁.exchange 1 = .initial ∧ s₁.number = (fun _ => 0)
      ∧ s₁.delivered = (fun _ _ _ => [])
      ∧ s₁.sent 0 0 1 = sent 0 0 1 ++ [([1], [0, 0, 0, 0, 0]), ([2], [])] :=
    ⟨_, rfl, rfl, rfl, rfl, rfl, rfl⟩
  have hcurrent : three.current s₁ 1 = ⟨3, 1, 0, 0⟩ := by
    simp [Cluster.current, hnumber, three]
  obtain ⟨st, hlast, hreceived⟩ := progress_after_last_id ch
  have hreach₁ : three.system.Reachable s₁ := reach_call hreach (by decide) hsend
  have hreach₂ := reach_progress hreach₁ (by decide) hcurrent hother hcomm (progress_last_id ch)
  have hreach₃ := reach_progress hreach₂ (by decide) hcurrent (Global.exchange_put _ _ _) rfl
    hlast
  have hreach₄ := reach_call hreach₃ (by decide : 1 < three.nranks)
    (show three.call 1 .recv _ = .ok _ from rfl)
  refine ⟨three, _, hreach₄, 1, 0, 0, by decide, by decide, by decide, ?_⟩
  simp [Global.put, Global.logDelivered, hdelivered, hnumber, hlog, hsent, hreceived,
    contentsWith, Message.content]

/-- The channels of three ranks after rank 0 sent a message without payload under the last id to
rank 1, and ranks 2 and 1 finished. -/
def wrappedFinished (ch : Channel Nat Bytes) : Comm :=
  ((((((⟨Function.update (fun _ => .empty) (0, 2) ch, fun _ => .empty⟩ : Comm).sendMetadata
    ⟨3, 0, 0, 0⟩ 1 (combinedMetadata [1] (messageId 0 (2 ^ 64 - 1)) 0)).sendMetadata
    ⟨3, 2, 0, 0⟩ 0 (terminationMarker 0)).sendMetadata
    ⟨3, 2, 0, 0⟩ 1 (terminationMarker 0)).sendMetadata
    ⟨3, 1, 0, 0⟩ 0 (terminationMarker 0)).sendMetadata
    ⟨3, 1, 0, 0⟩ 2 (terminationMarker 0))

/-- The exchange of rank 1 after `finish`. -/
def finishedOne : TagExchange :=
  { TagExchange.initial with finished := true, fireAndForget := 2 }

/-- Rank 1 then takes two termination markers. -/
theorem progress_finished (ch : Channel Nat Bytes) :
    progress ⟨3, 1, 0, 0⟩ oneEach (finishedOne, wrappedFinished ch)
      = .ok (cleanupCompletedOperations oneEach ((finishedOne.terminate 0 0).terminate 2 0),
        ((wrappedFinished ch).onMetadata (0, 1) (Channel.post 0)).onMetadata (2, 1)
          (Channel.post 0)) := by
  have hmeta : receiveMetadata ⟨3, 1, 0, 0⟩ oneEach (finishedOne, wrappedFinished ch)
      = .ok ((finishedOne.terminate 0 0).terminate 2 0,
        ((wrappedFinished ch).onMetadata (0, 1) (Channel.post 0)).onMetadata (2, 1)
          (Channel.post 0)) := by
    rfl
  exact progress_quiet hmeta rfl (fun _ => rfl) rfl

/-- Without the bound a finished exchange can be idle although a message to it was not
received. -/
theorem idle_not_received : ∃ (c : Cluster) (s : Global), c.system.Reachable s
    ∧ ∃ r q, r < c.nranks ∧ q < c.nranks ∧ q ≠ r ∧ (s.exchange r).finished = true
      ∧ isIdle (c.current s r) (s.exchange r) = true
      ∧ s.delivered r (s.number r) q ++ contentsWith q (s.exchange r).receivedMessages
        ≠ s.sent q (s.number r) r := by
  obtain ⟨counts, fire, ch, sendCount, sent, hsent, hreach⟩ :=
    sent_to_two_reachable (2 ^ 64 - 1)
  obtain ⟨s₁, hrun, hcomm, hother, hnumber, hdelivered, hlog⟩ : ∃ s₁,
      three.run [(0, .send [plain 1 [1]]), (2, .finish), (1, .finish)]
        (sentToTwo (2 ^ 64 - 1) counts fire ch sendCount sent) = .ok s₁
      ∧ s₁.comm = wrappedFinished ch ∧ s₁.exchange 1 = finishedOne ∧ s₁.number = (fun _ => 0)
      ∧ s₁.delivered = (fun _ _ _ => []) ∧ s₁.sent 0 0 1 = sent 0 0 1 ++ [([1], [])] :=
    ⟨_, rfl, rfl, rfl, rfl, rfl, rfl⟩
  have hcurrent : three.current s₁ 1 = ⟨3, 1, 0, 0⟩ := by
    simp [Cluster.current, hnumber, three]
  have hreach₂ := reach_progress (run_reaches hreach hrun).1 (by decide) hcurrent hother hcomm
    (progress_finished ch)
  refine ⟨three, _, hreach₂, 1, 0, by decide, by decide, by decide, ?_⟩
  have hexchange := Global.exchange_put 1
    (cleanupCompletedOperations oneEach ((finishedOne.terminate 0 0).terminate 2 0),
      ((wrappedFinished ch).onMetadata (0, 1) (Channel.post 0)).onMetadata (2, 1)
        (Channel.post 0)) s₁
  rw [hexchange]
  refine ⟨rfl, ?_, ?_⟩
  · rw [show three.current (Global.put 1 _ s₁) 1 = ⟨3, 1, 0, 0⟩ from hcurrent]
    rfl
  · simp [Global.put, hdelivered, hnumber, hlog, hsent, contentsWith, cleanupCompletedOperations,
      TagExchange.terminate, finishedOne, TagExchange.initial]

end Rapidsmpf.Exchange
