import Mathlib
import Rapidsmpf.Exchange.ReceiveBuffers

/-!
# Unique message ids

`send` makes the id of a message of the rank in the upper 32 bits and of a sequence number in the
lower ones. The sequence number is a 64-bit counter, of which no more than 32 bits are drawn in
runs that keep to `SequenceStep`. `ids_identified` says what the ids are good for in all these runs;
`ids_collide` is a run in which a rank has drawn too many.
-/

namespace Rapidsmpf.Exchange

open Protocol Fallible

/-! ## The ids in a run -/

/-- The ids of the application messages that the rank `q` sent to `d` through its `k`-th exchange,
as they are on the wire. The termination marker is sent behind them. -/
def sentIds (s : Global) (q k d : Nat) : List Nat :=
  (((s.comm.metadata (q, d)).sent.filter fun w => w.1 = k).take (s.sent q k d).length).filterMap
    fun w => idOf w.2

/-- The messages that a receiver has not handed over yet: those in `in_transit_messages_` and those
in `incoming_messages_`. -/
def held (nranks : Nat) (st : TagExchange) : List TagMessage :=
  (List.range nranks).flatMap fun q => st.inTransitMessages q ++ st.incomingMessages q

/-- The ranks that send to the rank `r`. -/
def peersOf (nranks r : Nat) : List Rank := (List.range nranks).filter (· ≠ r)

/-- An id tells the rank of its sender and is not the sentinel. -/
def Tells (q id : Nat) : Prop := id / 2 ^ 32 = q ∧ id ≠ terminationSentinel

/-- What the ids of application messages are good for. -/
structure Identified (c : Cluster) (s : Global) : Prop where
  /-- No two messages that a rank has in transit have the same id. -/
  held_nodup : ∀ r < c.nranks, ((held c.nranks (s.exchange r)).map TagMessage.messageId).Nodup
  held_tells : ∀ r < c.nranks, ∀ m ∈ held c.nranks (s.exchange r),
    Tells m.message.peerRank m.messageId
  /-- Nor do any two messages sent to it through one exchange. -/
  sent_nodup : ∀ r < c.nranks, ∀ k, ((peersOf c.nranks r).flatMap fun q => sentIds s q k r).Nodup
  sent_tells : ∀ q < c.nranks, ∀ d < c.nranks, q ≠ d → ∀ k, ∀ id ∈ sentIds s q k d, Tells q id
  /-- All messages have an id. -/
  sent_length : ∀ q < c.nranks, ∀ d < c.nranks, q ≠ d → ∀ k,
    (sentIds s q k d).length = (s.sent q k d).length

/-- The sequence numbers that a call draws have 32 bits. -/
def SequenceStep {n : Nat} (x : Between) : Rank × Move n → Prop
  | (r, .call call) => (x.global.exchange r).nextMessageId + call.messages ≤ 2 ^ 32
  | (_, .part _ _) => True

/-- Of an id, rank and sequence number can be told exactly if the latter has 32 bits. -/
theorem message_id_halves {rank next : Nat} (hrank : rank < 2 ^ 31) :
    messageId rank next / 2 ^ 32 = rank ∧ messageId rank next % 2 ^ 32 = next ↔ next < 2 ^ 32 := by
  constructor
  · rintro ⟨-, hnext⟩
    rw [← hnext]
    exact Nat.mod_lt _ (by norm_num)
  · intro hnext
    rw [message_id_eq hrank hnext]
    constructor <;> omega

/-! ## The messages of one exchange -/

/-- The event is an application message of the `k`-th exchange. -/
def Event.isApp (k : Nat) (x : Event) : Bool := (x.contentOf k).isSome

section Events

variable {h : List Event} {k : Nat} {x : Event}

theorem Event.isApp_iff : x.isApp k = true ↔ ∃ id msg, x = .app k id msg := by
  cases x with
  | marker e count => simp [Event.isApp, Event.contentOf]
  | app e id msg =>
      by_cases he : e = k
      · simp [Event.isApp, Event.contentOf, he]
      · simp [Event.isApp, Event.contentOf, he]

theorem length_contents (k : Nat) (h : List Event) :
    (contents k h).length = (h.filter (Event.isApp k)).length := by
  rw [contents, List.length_filterMap_eq_countP, List.countP_eq_length_filter]
  rfl

/-- As long as there is no marker, all events of an exchange are messages. -/
theorem filter_of_open (hopen : ¬ Closed k h) :
    h.filter (fun x => x.stamp = k) = h.filter (Event.isApp k) := by
  refine List.filter_congr fun x hx => ?_
  cases x with
  | app e id msg =>
      by_cases he : e = k
      · simp [Event.stamp, Event.isApp, Event.contentOf, he]
      · simp [Event.stamp, Event.isApp, Event.contentOf, he]
  | marker e count =>
      have he : e ≠ k := by
        rintro rfl
        exact hopen ⟨count, hx⟩
      simp [Event.stamp, Event.isApp, Event.contentOf, he]

/-- The messages of an exchange are the first of its events. -/
theorem Events.take_contents (hev : Events h) :
    (h.filter fun x => x.stamp = k).take (contents k h).length = h.filter (Event.isApp k) := by
  by_cases hclosed : Closed k h
  · obtain ⟨count, hmem⟩ := hclosed
    obtain ⟨pre, post, rfl⟩ := List.append_of_mem hmem
    have hopen : ¬ Closed k pre := (hev.after rfl).2
    have hpost : ∀ x ∈ post, x.stamp ≠ k := by
      intro x hx
      obtain ⟨front, back, rfl⟩ := List.append_of_mem hx
      have hsplit : pre ++ .marker k count :: (front ++ x :: back) =
          (pre ++ .marker k count :: front) ++ x :: back := by simp
      rintro rfl
      exact (hev.after hsplit).2 ⟨count, by simp⟩
    have hnone : (Event.marker k count :: post).filter (Event.isApp k) = [] := by
      refine List.filter_eq_nil_iff.mpr fun x hx happ => ?_
      obtain ⟨id, msg, rfl⟩ := Event.isApp_iff.mp happ
      rcases List.mem_cons.mp hx with heq | hx
      · cases heq
      · exact hpost _ hx rfl
    rw [length_contents, List.filter_append, List.filter_append, hnone, List.append_nil,
      filter_of_open hopen, List.take_left]
  · rw [length_contents, filter_of_open hclosed, List.take_length]

end Events

/-! ## In every state -/

/-- The ids that a receiver reads. -/
def idsOf (xs : List Event) : List Nat := xs.filterMap fun x => idOf x.wire.2

section Ids

variable {c : Cluster} {h : Rank → Rank → List Event} {s : Global} {q r d k : Nat}
  {xs : List Event} {ms : List TagMessage}

/-- Ids of one sender and one exchange are distinct and tell the sender. -/
theorem ids_of_peer (ha : Agrees c h s) (hn : AllNumbered c s) (hfits : SequenceFits s)
    (hq : q < c.nranks) (hd : d < c.nranks) (hne : q ≠ d) (hsub : xs.Sublist (h q d))
    (happ : ∀ x ∈ xs, x.isApp k = true) :
    (idsOf xs).Nodup ∧ ∀ id ∈ idsOf xs, Tells q id := by
  have hsent : (s.comm.metadata (q, d)).sent = (h q d).map Event.wire :=
    ((ha.receiver d hd).peer q hq hne).metadata_sent
  have hnumbered := hn q hq d hne
  rw [hsent] at hnumbered
  have hread : ∀ x ∈ xs, ∀ id, idOf x.wire.2 = some id → id ≠ terminationSentinel := by
    intro x hx id hid
    obtain ⟨id', msg, rfl⟩ := Event.isApp_iff.mp (happ x hx)
    obtain ⟨hid', hsentinel⟩ := ha.sent_id hq hd hne (hsub.subset hx)
    rw [hid'] at hid
    exact Option.some.inj hid ▸ hsentinel
  have hstamp : ∀ x ∈ xs, x.wire.1 = k := by
    intro x hx
    obtain ⟨id, msg, rfl⟩ := Event.isApp_iff.mp (happ x hx)
    rfl
  constructor
  · refine List.pairwise_filterMap.mpr ?_
    have hdistinct := (List.pairwise_map.mp hnumbered.distinct).sublist hsub
    refine hdistinct.imp_of_mem fun {x y} hx hy hpair id hid id' hid' => ?_
    rintro rfl
    exact hread x hx id hid (hpair ((hstamp x hx).trans (hstamp y hy).symm) id hid hid')
  · intro id hid
    obtain ⟨x, hx, hid⟩ := List.mem_filterMap.mp hid
    have hsentinel := hread x hx id hid
    obtain ⟨next, hnext, rfl⟩ := hnumbered.known _ (List.mem_map_of_mem (hsub.subset hx)) id hid
      hsentinel
    have hseq : next < 2 ^ 32 := hnext.trans_le (hfits q _)
    exact ⟨((message_id_halves (hq.trans c.nranks_lt)).mpr hseq).1, hsentinel⟩

/-- Ids that tell different senders are different. -/
theorem nodup_of_tells {l : List Nat} {f : Nat → List Nat} (hl : l.Nodup)
    (hf : ∀ q ∈ l, (f q).Nodup ∧ ∀ id ∈ f q, Tells q id) : (l.flatMap f).Nodup := by
  refine List.nodup_flatMap.mpr ⟨fun q hq => (hf q hq).1, ?_⟩
  refine hl.imp_of_mem fun {p q} hp hq hne id hid hid' => ?_
  exact hne (((hf p hp).2 id hid).1.symm.trans ((hf q hq).2 id hid').1)

/-- The ids on the wire are those of the messages sent. -/
theorem sent_ids_eq (ha : Agrees c h s) (hq : q < c.nranks) (hd : d < c.nranks) (hne : q ≠ d) :
    sentIds s q k d = idsOf ((h q d).filter (Event.isApp k)) := by
  have hsent : (s.comm.metadata (q, d)).sent = (h q d).map Event.wire :=
    ((ha.receiver d hd).peer q hq hne).metadata_sent
  have hsender := ha.sender q hq
  have hcontents : contents k (h q d) = s.sent q k d :=
    hsender.contents_eq d hd (Ne.symm hne) k
  have hstamps : (fun w : Nat × Bytes => decide (w.1 = k)) ∘ Event.wire =
      fun x => decide (x.stamp = k) := by
    funext x
    simp
  rw [sentIds, hsent, ← hcontents, List.filter_map, hstamps, ← List.map_take,
    (hsender.events d hd (Ne.symm hne)).take_contents, List.filterMap_map]
  rfl

/-- All messages have an id that can be read. -/
theorem length_ids (ha : Agrees c h s) (hq : q < c.nranks) (hd : d < c.nranks) (hne : q ≠ d)
    (hsub : xs.Sublist (h q d)) (happ : ∀ x ∈ xs, x.isApp k = true) :
    (idsOf xs).length = xs.length := by
  rw [idsOf, List.length_filterMap_eq_countP, List.countP_eq_length]
  intro x hx
  obtain ⟨id, msg, rfl⟩ := Event.isApp_iff.mp (happ x hx)
  rw [(ha.sent_id hq hd hne (hsub.subset hx)).1]
  rfl

/-- The ids that a receiver has recorded are those it read. -/
theorem ids_of_records (ha : Agrees c h s) (hq : q < c.nranks) (hd : d < c.nranks) (hne : q ≠ d)
    (hrec : List.Forall₂ (Records q k) xs ms) (hsub : xs.Sublist (h q d)) :
    idsOf xs = ms.map TagMessage.messageId ∧ (∀ x ∈ xs, x.isApp k = true) ∧
      ∀ m ∈ ms, m.message.peerRank = q := by
  induction hrec with
  | nil => simp [idsOf]
  | @cons x m xs ms hx _ ih =>
      obtain ⟨hids, happ, hpeer⟩ := ih ((List.sublist_cons_self x xs).trans hsub)
      cases x with
      | marker => exact hx.elim
      | app e id msg =>
          obtain ⟨rfl, rfl, -, -, hrank, -⟩ := hx
          have hid := (ha.sent_id hq hd hne (hsub.subset List.mem_cons_self)).1
          refine ⟨?_, List.forall_mem_cons.mpr ⟨Event.isApp_iff.mpr ⟨_, _, rfl⟩, happ⟩,
            List.forall_mem_cons.mpr ⟨hrank, hpeer⟩⟩
          rw [idsOf, List.filterMap_cons, hid]
          exact congrArg (m.messageId :: ·) hids

/-- The ids of the messages of one peer that a receiver holds. -/
theorem held_of_peer (ha : Agrees c h s) (hn : AllNumbered c s) (hfits : SequenceFits s)
    (hq : q < c.nranks) (hr : d < c.nranks) (ms : List TagMessage)
    (hms : ms = (s.exchange d).inTransitMessages q ++ (s.exchange d).incomingMessages q) :
    ((ms.map TagMessage.messageId).Nodup ∧ ∀ id ∈ ms.map TagMessage.messageId, Tells q id) ∧
      ∀ m ∈ ms, m.message.peerRank = q := by
  have hrec := ha.receiver d hr
  rcases eq_or_ne q d with rfl | hne
  · have hin : (s.exchange q).incomingMessages q = [] := hrec.incoming_self
    have htransit : (s.exchange q).inTransitMessages q = [] := hrec.transit_self
    rw [hin, htransit] at hms
    subst hms
    simp
  · obtain ⟨done, transit, waiting, last, rest, hs⟩ := (hrec.peer q hq hne).split
    have heq : h q d = done ++ transit ++ waiting ++ last ++ rest := hs.eq
    have hsub : (transit ++ waiting).Sublist (h q d) := by
      rw [heq, List.append_assoc done, List.append_assoc, List.append_assoc]
      exact (List.sublist_append_left _ _).trans (List.sublist_append_right _ _)
    have hrecords : List.Forall₂ (Records q (s.number d)) (transit ++ waiting) ms :=
      hms ▸ List.rel_append hs.transit_records hs.waiting_records
    obtain ⟨hids, happ, hpeer⟩ := ids_of_records ha hq hr hne hrecords hsub
    rw [← hids]
    exact ⟨ids_of_peer ha hn hfits hq hr hne hsub happ, hpeer⟩

/-- Sequence numbers of 32 bits make the ids good for all of it. -/
theorem Agrees.identified (ha : Agrees c h s) (hn : AllNumbered c s) (hfits : SequenceFits s) :
    Identified c s := by
  have hsent : ∀ q < c.nranks, ∀ d < c.nranks, q ≠ d → ∀ k,
      (sentIds s q k d).Nodup ∧ ∀ id ∈ sentIds s q k d, Tells q id := by
    intro q hq d hd hne k
    rw [sent_ids_eq ha hq hd hne]
    exact ids_of_peer ha hn hfits hq hd hne List.filter_sublist fun x hx =>
      (List.mem_filter.mp hx).2
  constructor
  case held_nodup =>
    intro r hr
    rw [held, List.map_flatMap]
    refine nodup_of_tells List.nodup_range fun q hq => ?_
    exact (held_of_peer ha hn hfits (List.mem_range.mp hq) hr _ rfl).1
  case held_tells =>
    intro r hr m hm
    obtain ⟨q, hq, hm⟩ := List.mem_flatMap.mp hm
    obtain ⟨⟨-, htells⟩, hpeer⟩ := held_of_peer ha hn hfits (List.mem_range.mp hq) hr _ rfl
    rw [hpeer m hm]
    exact htells _ (List.mem_map_of_mem hm)
  case sent_nodup =>
    intro r hr k
    refine nodup_of_tells (List.nodup_range.filter _) fun q hq => ?_
    obtain ⟨hq, hne⟩ := List.mem_filter.mp hq
    exact hsent q (List.mem_range.mp hq) r hr (of_decide_eq_true hne) k
  case sent_tells => exact fun q hq d hd hne k => (hsent q hq d hd hne k).2
  case sent_length =>
    intro q hq d hd hne k
    rw [sent_ids_eq ha hq hd hne, length_ids ha hq hd hne List.filter_sublist
      (fun x hx => (List.mem_filter.mp hx).2), ← length_contents,
      (ha.sender q hq).contents_eq d hd (Ne.symm hne) k]

end Ids

/-! ## In every run -/

section Runs

variable {c : Cluster} {x x' : Between} {r : Rank}

/-- What the runs keep in which all sequence numbers have 32 bits. -/
def Sequenced (c : Cluster) (x : Between) : Prop :=
  (∃ h, Agrees c h x.global) ∧ AllNumbered c x.global ∧ SequenceFits x.global

/-- A call that draws sequence numbers of 32 bits. -/
theorem call_fits {call : Call c.nranks} {s s' : Global} (ha : ∃ h, Agrees c h s)
    (hr : r < c.nranks) (hfits : SequenceFits s)
    (hstep : (s.exchange r).nextMessageId + call.messages ≤ 2 ^ 32)
    (hok : c.call r call s = .ok s') : SequenceFits s' := by
  intro q k
  obtain ⟨h, ha⟩ := ha
  cases call with
  | send messages =>
      have hnext := (ha.sender r hr).next_eq
      simp only [Cluster.call, bind_eq_ok, pure_eq_ok] at hok
      obtain ⟨y, -, rfl⟩ := hok
      show (if q = r ∧ k = s.number r then s.sendCount q k + messages.length
        else s.sendCount q k) ≤ 2 ^ 32
      split
      · next heq =>
          obtain ⟨rfl, rfl⟩ := heq
          rw [← hnext]
          exact hstep
      · exact hfits q k
  | finish => exact (call_sendCount_le_add hok q k).trans (hfits q k)
  | progress env => exact (call_sendCount_le_add hok q k).trans (hfits q k)
  | recv => exact (call_sendCount_le_add hok q k).trans (hfits q k)
  | next => exact (call_sendCount_le_add hok q k).trans (hfits q k)

theorem call_sequenced {call : Call c.nranks} {s' : Global} (hi : Sequenced c x)
    (hr : r < c.nranks) (hstep : SequenceStep x (r, .call call))
    (hprogress : ∀ env, call ≠ .progress env) (hok : c.call r call x.global = .ok s') :
    (∃ h, Agrees c h s') ∧ AllNumbered c s' ∧ SequenceFits s' := by
  obtain ⟨ha, hn, hfits⟩ := hi
  have hfits' : SequenceFits s' := call_fits ha hr hfits hstep hok
  refine ⟨call_inv hr ha hfits'.bounded hok, ?_, hfits'⟩
  obtain ⟨h, ha⟩ := ha
  exact call_numbered ha hr hfits' hprogress hok hn

theorem moves_sequenced {move : Move c.nranks} (hi : Sequenced c x) (hr : r < c.nranks)
    (hstep : SequenceStep x (r, move)) (hmove : c.Moves r x move x') : Sequenced c x' := by
  have hpart : ∀ {env : Env c.nranks} {p : Part c.nranks} {y : State},
      part (c.current x.global r) env p (x.global.exchange r, x.global.comm) = .ok y →
      (∃ h, Agrees c h (x.global.put r y)) ∧ AllNumbered c (x.global.put r y) ∧
        SequenceFits (x.global.put r y) := by
    intro env p y hok
    obtain ⟨⟨h, ha⟩, hn, hfits⟩ := hi
    exact ⟨⟨h, ha.part hr hok⟩, part_numbered ha hr hok hn, hfits⟩
  cases hmove with
  | call hprogress _ hok => exact call_sequenced hi hr hstep hprogress hok
  | next hok => exact call_sequenced hi hr hstep (fun env => by simp) hok
  | part _ hok _ => exact hpart hok
  | allocate _ hok _ => exact hpart hok

/-- In every run that draws sequence numbers of 32 bits only, the ids of messages in transit are
distinct, and they tell the sender. -/
theorem ids_identified (hx : c.between.Reach SequenceStep x) : Identified c x.global := by
  have hsequenced : Sequenced c x := by
    refine hx.invariant ?_ ?_
    · rintro x rfl
      exact ⟨init_inv c, all_numbered_initial, fun q k => Nat.zero_le _⟩
    · rintro x ⟨r, move⟩ x' hi hstep ⟨hr, hmove⟩
      exact moves_sequenced hi hr hstep hmove
  obtain ⟨⟨h, ha⟩, hn, hfits⟩ := hsequenced
  exact ha.identified hn hfits

end Runs

/-- Rank 1 holds the first message of rank 0. -/
theorem ids_identified_two : ∃ x, two.between.Reach SequenceStep x ∧
    (held two.nranks (x.global.exchange 1)).map TagMessage.messageId = [0] ∧
    Identified two x.global := by
  have hrun : ∃ g y, two.call 0 (.send [lost]) .initial = .ok g ∧
      part (two.current g 1) scarce (.receive 0) (g.exchange 1, g.comm) = .ok y ∧
      (held two.nranks y.1).map TagMessage.messageId = [0] := ⟨_, _, rfl, rfl, rfl⟩
  obtain ⟨g, y, hsend, hpart, hheld⟩ := hrun
  have hmoves : two.Moves 0 .initial (.call (.send [lost])) { Between.initial with global := g } :=
    .call (fun env => by simp) (by simp) hsend
  have hfirst : SequenceStep (n := two.nranks) .initial (0, .call (.send [lost])) := by
    show 0 + 1 ≤ 2 ^ 32
    norm_num
  have hsent : two.between.Reach SequenceStep { Between.initial with global := g } :=
    (System.Reach.init rfl).step hfirst ⟨by decide, hmoves⟩
  obtain ⟨x, hmove, hglobal, -⟩ := exists_moves
    (c := two) (x := { Between.initial with global := g }) (r := 1)
    (Nat.zero_le scarce.now) hpart
  have hx : two.between.Reach SequenceStep x := hsent.step
    (l := (1, .part scarce (.receive (0 : Fin 2)))) trivial ⟨by decide, hmove⟩
  refine ⟨x, hx, ?_, ids_identified hx⟩
  rw [hglobal, Global.exchange_put]
  exact hheld

/-! ## Too many sequence numbers -/

/-- A `send` between the parts of `progress`. -/
theorem reach_send {c : Cluster} {x : Between} {r : Rank} {messages : List Message} {g : Global}
    (hx : c.between.Reachable x) (hr : r < c.nranks)
    (hok : c.call r (.send messages) x.global = .ok g) :
    ∃ x', c.between.Reachable x' ∧ x'.global = g ∧ x'.clock = x.clock := by
  have hmoves : c.Moves r x (.call (.send messages)) { x with global := g } :=
    .call (fun env => by simp) (by simp) hok
  exact ⟨_, hx.next (l := (r, .call (.send messages))) ⟨hr, hmoves⟩, rfl, rfl⟩

/-- `sent_to_two_reachable` between the parts of `progress`. -/
theorem sent_to_two_between (n : Nat) : ∃ counts fire ch sendCount sent x,
    three.between.Reachable x ∧
      x.global = sentToTwo (n % 2 ^ 64) counts fire ch sendCount sent ∧ x.clock = fun _ => 0 := by
  induction n with
  | zero =>
      refine ⟨fun _ => 0, 0, .empty, fun _ _ => 0, fun _ _ _ => [], .initial, .of_init rfl, ?_, rfl⟩
      simp [sentToTwo, Between.initial, Global.initial, TagExchange.initial]
  | succ n ih =>
      obtain ⟨counts, fire, ch, sendCount, sent, x, hreach, hx, hclock⟩ := ih
      obtain ⟨counts', fire', ch', sendCount', sent', -, hcall⟩ :=
        send_to_two (n % 2 ^ 64) counts fire ch sendCount sent
      have hnext : (n % 2 ^ 64 + 1) % 2 ^ 64 = (n + 1) % 2 ^ 64 := by omega
      rw [hnext, ← hx] at hcall
      obtain ⟨x', hreach', hx', hclock'⟩ := reach_send hreach (by decide) hcall
      exact ⟨counts', fire', ch', sendCount', sent', x', hreach', hx', hclock'.trans hclock⟩

theorem five_bytes_lt : ([0, 0, 0, 0, 0] : Bytes).length < 2 ^ 64 := by decide

theorem zero_one_two_perm : [0, 1, 2].Perm (List.range 3) := .refl _

/-- The channels after rank 0 sent `lost` with the sequence number `2 ^ 33`, and rank 2 with its
first. -/
def collided (ch : Channel Nat Bytes) : Comm :=
  (((((⟨Function.update (fun _ => .empty) (0, 2) ch, fun _ => .empty⟩ : Comm).sendMetadata
    ⟨3, 0, 0, 0⟩ 1 (combinedMetadata [1] (messageId 0 (2 ^ 33)) 5)).sendData ⟨3, 0, 0, 0⟩ 1
      ⟨.host, [0, 0, 0, 0, 0], five_bytes_lt⟩).sendMetadata ⟨3, 2, 0, 0⟩ 1
        (combinedMetadata [1] (messageId 2 0) 5)).sendData ⟨3, 2, 0, 0⟩ 1
          ⟨.host, [0, 0, 0, 0, 0], five_bytes_lt⟩)

/-- A `progress` call of three ranks that receives nothing and gets a buffer for every message. -/
def supplied : Env 3 where
  arrived := fun _ => 0
  alloc := fun _ _ _ => some (.empty .host)
  writeDone := fun _ => true
  now := 0
  incomingOrder := [0, 1, 2]
  reported := []
  transitOrder := [0, 1, 2]
  movedToDisk := fun _ => false
  sendsCompleted := 0
  incoming_perm := zero_one_two_perm
  transit_perm := zero_one_two_perm

/-- Rank 1 receives both messages under one id, and cannot receive both payloads. -/
theorem receive_collided (ch : Channel Nat Bytes) : ∃ y : State,
    run (part ⟨3, 1, 0, 0⟩ oneEach) [.receive (0 : Fin 3), .receive (2 : Fin 3)]
        (.initial, collided ch) = .ok y ∧
      (held 3 y.1).map TagMessage.messageId = [2 ^ 33, 2 ^ 33] ∧
      progress ⟨3, 1, 0, 0⟩ supplied y = .error "in transit future already exists" :=
  ⟨_, rfl, rfl, rfl⟩

/-- Two messages that rank 1 holds have one id after rank 0 sent `2 ^ 33` messages, and `progress`
fails. -/
theorem ids_collide : ∃ x, three.between.Reachable x ∧ ¬ Identified three x.global ∧
    progress (three.current x.global 1) supplied (x.global.exchange 1, x.global.comm) =
      .error "in transit future already exists" := by
  obtain ⟨counts, fire, ch, sendCount, sent, x, hx, hglobal, hclock⟩ := sent_to_two_between (2 ^ 33)
  obtain ⟨g₁, g₂, hfirst, hsecond, hcomm, hother, hnumber⟩ : ∃ g₁ g₂,
      three.call 0 (.send [lost])
        (sentToTwo (2 ^ 33 % 2 ^ 64) counts fire ch sendCount sent) = .ok g₁ ∧
      three.call 2 (.send [lost]) g₁ = .ok g₂ ∧
      g₂.comm = collided ch ∧ g₂.exchange 1 = .initial ∧ g₂.number = (fun _ => 0) :=
    ⟨_, _, rfl, rfl, rfl, rfl, rfl⟩
  obtain ⟨x₁, hx₁, rfl, hclock₁⟩ := reach_send hx (by decide) (hglobal ▸ hfirst)
  obtain ⟨x₂, hx₂, rfl, hclock₂⟩ := reach_send hx₁ (by decide) hsecond
  have hcurrent : three.current x₂.global 1 = ⟨3, 1, 0, 0⟩ := by
    simp [Cluster.current, hnumber, three]
  obtain ⟨y, hrun, hheld, hfail⟩ := receive_collided ch
  have hstart : x₂.clock 1 ≤ oneEach.now := by
    rw [hclock₂, hclock₁, hclock]
    exact Nat.le_refl _
  rw [← hother, ← hcomm, ← hcurrent] at hrun
  obtain ⟨x₃, hx₃, hput, -⟩ := reachable_run (c := three) (r := 1) hx₂ (by decide) hstart hrun
  have hexchange : x₃.global.exchange 1 = y.1 := by rw [hput, Global.exchange_put]
  refine ⟨x₃, hx₃, fun hidentified => ?_, ?_⟩
  · have hnodup := hidentified.held_nodup 1 (by decide)
    rw [hexchange] at hnodup
    exact List.not_nodup_pair _ (hheld ▸ hnodup)
  · rw [hexchange, hput]
    show progress (three.current x₂.global 1) supplied y = _
    rw [hcurrent]
    exact hfail

end Rapidsmpf.Exchange
