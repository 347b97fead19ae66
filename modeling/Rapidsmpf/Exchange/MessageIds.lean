import Mathlib
import Rapidsmpf.Exchange.Completion
import Rapidsmpf.Exchange.Parts

/-!
# The ids of the messages in transit

`in_transit_futures_` is keyed by message ids. `Agrees.fresh` says that no message that still waits
in an exchange has the id of one in transit, as long as no rank has sent `2 ^ 32` messages through
one exchange: an id is made of the rank of its sender and of a 32-bit sequence number.
-/

namespace Rapidsmpf.Exchange

open Protocol Fallible LittleEndian

/-! ## Ids on the wire -/

/-- The id that a receiver reads in a metadata message. -/
def idOf (msg : Bytes) : Option Nat :=
  (parseMetadata msg).toOption.map Trailer.messageId

theorem id_of_combined {metadata : Bytes} {id : Nat} (hid : id < 2 ^ 64) (m : Message) :
    idOf (combinedMetadata metadata id m.payloadSize) = some id := by
  rw [idOf, parse_combined hid m.payloadSize_lt]
  rfl

theorem id_of_marker {count : Nat} (h : count < 2 ^ 64) :
    idOf (terminationMarker count) = some terminationSentinel := by
  rw [idOf, parse_marker h]
  rfl

theorem message_id_eq {rank next : Nat} (hrank : rank < 2 ^ 31) (hnext : next < 2 ^ 32) :
    messageId rank next = rank * 2 ^ 32 + next := by
  rw [messageId, ← Nat.shiftLeft_add_eq_or_of_lt hnext, Nat.shiftLeft_eq, Nat.mod_eq_of_lt]
  omega

theorem message_id_inj {rank rank' next next' : Nat} (hrank : rank < 2 ^ 31)
    (hrank' : rank' < 2 ^ 31) (hnext : next < 2 ^ 32) (hnext' : next' < 2 ^ 32)
    (h : messageId rank next = messageId rank' next') : rank = rank' ∧ next = next' := by
  rw [message_id_eq hrank hnext, message_id_eq hrank' hnext'] at h
  constructor <;> omega

/-! ## What a rank has sent -/

/-- The metadata messages from the rank `q` to one destination. Their ids were drawn from the
sequence of their exchange, of which `count` tells the length, and no two of one exchange are the
same. -/
structure Numbered (q : Rank) (count : Nat → Nat) (sent : List (Nat × Bytes)) : Prop where
  known : ∀ w ∈ sent, ∀ id, idOf w.2 = some id → id ≠ terminationSentinel →
    ∃ k < count w.1, id = messageId q k
  distinct : sent.Pairwise fun w w' => w.1 = w'.1 → ∀ id, idOf w.2 = some id →
    idOf w'.2 = some id → id = terminationSentinel

section Numbered

variable {q e : Nat} {count count' : Nat → Nat} {sent : List (Nat × Bytes)}

theorem Numbered.mono (hn : Numbered q count sent) (hle : ∀ k, count k ≤ count' k) :
    Numbered q count' sent where
  known w hw id hid hne := by
    obtain ⟨k, hk, rfl⟩ := hn.known w hw id hid hne
    exact ⟨k, hk.trans_le (hle w.1), rfl⟩
  distinct := hn.distinct

/-- An application message takes the next id of its exchange. -/
theorem Numbered.app (hn : Numbered q count sent) (hq : q < 2 ^ 31) (hcount : count e < 2 ^ 32)
    (m : Message) :
    Numbered q (Function.update count e (count e + 1))
      (sent ++ [(e, combinedMetadata m.metadata (messageId q (count e)) m.payloadSize)]) := by
  have hle : ∀ k, count k ≤ Function.update count e (count e + 1) k := by
    intro k
    rcases eq_or_ne k e with rfl | hne
    · rw [Function.update_self]
      exact Nat.le_succ _
    · rw [Function.update_of_ne hne]
  have hid : messageId q (count e) < 2 ^ 64 :=
    (message_id_ne hq (hcount.trans (by norm_num))).1
  refine ⟨fun w hw id hw' hne => ?_, List.pairwise_append.mpr ⟨hn.distinct, by simp, ?_⟩⟩
  · rcases List.mem_append.mp hw with hw | hw
    · exact (hn.mono hle).known w hw id hw' hne
    · cases List.mem_singleton.mp hw
      rw [id_of_combined hid] at hw'
      cases hw'
      exact ⟨count e, by simp, rfl⟩
  · intro w hw w' hw' hstamp id hid₁ hid₂
    cases List.mem_singleton.mp hw'
    rw [id_of_combined hid] at hid₂
    cases hid₂
    by_contra hne
    obtain ⟨k, hk, heq⟩ := hn.known w hw _ hid₁ hne
    rw [hstamp] at hk
    exact hk.ne (message_id_inj hq hq hcount (hk.trans hcount) heq).2.symm

/-- A marker has the sentinel for its id. -/
theorem Numbered.marker (hn : Numbered q count sent) {announced : Nat}
    (hlt : announced < 2 ^ 64) :
    Numbered q count (sent ++ [(e, terminationMarker announced)]) := by
  refine ⟨fun w hw id hw' hne => ?_, List.pairwise_append.mpr ⟨hn.distinct, by simp, ?_⟩⟩
  · rcases List.mem_append.mp hw with hw | hw
    · exact hn.known w hw id hw' hne
    · cases List.mem_singleton.mp hw
      rw [id_of_marker hlt] at hw'
      exact absurd (Option.some.inj hw').symm hne
  · intro w _ w' hw' _ id _ hid
    cases List.mem_singleton.mp hw'
    rw [id_of_marker hlt] at hid
    exact (Option.some.inj hid).symm

end Numbered

/-- The sending loop draws one id for each message. -/
theorem send_loop_numbered {i : Instance} (hrank : i.rank < 2 ^ 31) {count : Nat → Nat}
    {messages : List Message} {st : TagExchange} {comm : Comm} {s' : State}
    (hnext : st.nextMessageId = count i.stamp)
    (hbound : count i.stamp + messages.length ≤ 2 ^ 32)
    (hn : ∀ d, i.rank ≠ d → Numbered i.rank count (comm.metadata (i.rank, d)).sent)
    (hok : messages.foldlM (sendOne i) (st, comm) = .ok s') :
    (∀ d, i.rank ≠ d → Numbered i.rank
      (Function.update count i.stamp (count i.stamp + messages.length))
      (s'.2.metadata (i.rank, d)).sent) ∧
    ∀ k : Rank × Rank, k.1 ≠ i.rank → s'.2.metadata k = comm.metadata k := by
  induction messages generalizing count st comm with
  | nil =>
      cases hok
      simpa using hn
  | cons m rest ih =>
      rw [List.length_cons] at hbound
      obtain ⟨⟨st₁, comm₁⟩, hone, hrest⟩ := bind_eq_ok.mp (show sendOne i (st, comm) m >>=
        rest.foldlM (sendOne i) = .ok s' from hok)
      obtain ⟨-, ⟨fire, hst⟩, hcomm⟩ := send_one_spec hone
      dsimp only at hst hcomm
      have hnext₁ : st₁.nextMessageId = count i.stamp + 1 := by
        rw [hst]
        show (st.nextMessageId + 1) % 2 ^ 64 = _
        omega
      have hnumbered : ∀ d, i.rank ≠ d → Numbered i.rank
          (Function.update count i.stamp (count i.stamp + 1))
          (comm₁.metadata (i.rank, d)).sent := by
        intro d hd
        rcases eq_or_ne d m.peerRank with rfl | hne
        · rw [hcomm, hnext]
          simpa [Comm.onMetadata, Comm.onGpuData] using
            (hn m.peerRank hd).app hrank (by omega : count i.stamp < 2 ^ 32) m
        · have hpair : (i.rank, d) ≠ (i.rank, m.peerRank) := fun heq => hne (Prod.mk.inj heq).2
          have hsame : comm₁.metadata (i.rank, d) = comm.metadata (i.rank, d) := by
            rw [hcomm]
            simp [Comm.onMetadata, Comm.onGpuData, Function.update_of_ne hpair]
          rw [hsame]
          refine (hn d hd).mono fun k => ?_
          rcases eq_or_ne k i.stamp with rfl | hk
          · rw [Function.update_self]
            exact Nat.le_succ _
          · rw [Function.update_of_ne hk]
      have hself : Function.update count i.stamp (count i.stamp + 1) i.stamp =
          count i.stamp + 1 := Function.update_self _ _ _
      obtain ⟨hlast, hothers⟩ := ih (hnext₁.trans hself.symm) (by rw [hself]; omega) hnumbered
        hrest
      refine ⟨fun d hd => ?_, fun k hk => (hothers k hk).trans ?_⟩
      · have hlen : count i.stamp + (m :: rest).length =
            count i.stamp + 1 + rest.length := by
          rw [List.length_cons]
          omega
        rw [hlen]
        simpa using hlast d hd
      · have hpair : k ≠ (i.rank, m.peerRank) := fun heq => hk (by rw [heq])
        rw [hcomm]
        simp [Comm.onMetadata, Comm.onGpuData, Function.update_of_ne hpair]

/-- `finish` sends markers only. -/
theorem finish_numbered {i : Instance} {count : Nat → Nat} {st : TagExchange} {comm : Comm}
    {s' : State} (hcount : ∀ d, st.messagesSentTo d < 2 ^ 64)
    (hn : ∀ d, i.rank ≠ d → Numbered i.rank count (comm.metadata (i.rank, d)).sent)
    (hok : finish i (st, comm) = .ok s') :
    (∀ d, i.rank ≠ d → Numbered i.rank count (s'.2.metadata (i.rank, d)).sent) ∧
    ∀ k : Rank × Rank, k.1 ≠ i.rank → s'.2.metadata k = comm.metadata k := by
  simp only [finish, check_eq_ok, pure_eq_ok] at hok
  obtain ⟨-, rfl⟩ := hok
  obtain ⟨fire, comm', hloop, hext⟩ := finish_loop (i := i) List.nodup_range
    { st with finished := true } comm fun _ => []
  rw [hloop]
  refine ⟨fun d hd => ?_, fun k hk => (hext.others k hk).1⟩
  obtain ⟨ev, hev, hmeta, -⟩ := hext.own d
  rw [hmeta]
  split at hev
  · obtain rfl : ev = [.marker i.stamp (st.messagesSentTo d)] := by simpa using hev.symm
    simpa [Channel.sendAll, Event.wire] using (hn d hd).marker (e := i.stamp) (hcount d)
  · obtain rfl : ev = [] := by simpa using hev
    simpa [Channel.sendAll] using hn d hd

/-! ## In every run -/

/-- No rank sends `2 ^ 32` messages through one exchange. -/
def Few (s : Global) : Prop :=
  ∀ q k, s.sendCount q k < 2 ^ 32

theorem Few.bounded {s : Global} (h : Few s) : Bounded s :=
  fun q k => ((h q k).trans (by norm_num)).le

/-- No rank has drawn a sequence number that takes more than 32 bits. -/
def SequenceFits (s : Global) : Prop :=
  ∀ q k, s.sendCount q k ≤ 2 ^ 32

theorem Few.fits {s : Global} (h : Few s) : SequenceFits s :=
  fun q k => (h q k).le

theorem SequenceFits.bounded {s : Global} (h : SequenceFits s) : Bounded s :=
  fun q k => (h q k).trans (by norm_num)

/-- What every rank has sent to every other. -/
def AllNumbered (c : Cluster) (s : Global) : Prop :=
  ∀ q < c.nranks, ∀ d, q ≠ d → Numbered q (s.sendCount q) (s.comm.metadata (q, d)).sent

section Runs

variable {c : Cluster} {h : Rank → Rank → List Event} {s : Global} {r : Rank}

theorem all_numbered_initial : AllNumbered c .initial :=
  fun q _ d _ => ⟨fun w hw => absurd hw (by simp [Global.initial]), List.Pairwise.nil⟩

/-- A rank sends, and the other ranks do not. -/
theorem AllNumbered.sends (hn : AllNumbered c s) {x : State} {sendCount : Rank → Nat → Nat}
    {sent : Rank → Nat → Rank → List (Bytes × Bytes)}
    (hown : ∀ d, r ≠ d → Numbered r (sendCount r) (x.2.metadata (r, d)).sent)
    (hothers : ∀ k : Rank × Rank, k.1 ≠ r → x.2.metadata k = s.comm.metadata k)
    (hcount : ∀ q, q ≠ r → sendCount q = s.sendCount q) :
    AllNumbered c { s.put r x with sendCount, sent } := by
  intro q hq d hqd
  rcases eq_or_ne q r with rfl | hne
  · exact hown d hqd
  · show Numbered q (sendCount q) (x.2.metadata (q, d)).sent
    rw [hothers (q, d) hne, hcount q hne]
    exact hn q hq d hqd

/-- Calls other than `progress` draw ids in sequence. -/
theorem call_numbered {call : Call c.nranks} {s' : Global} (ha : Agrees c h s)
    (hr : r < c.nranks) (hfits : SequenceFits s') (hprogress : ∀ env, call ≠ .progress env)
    (hok : c.call r call s = .ok s') (hn : AllNumbered c s) : AllNumbered c s' := by
  have hrank : r < 2 ^ 31 := hr.trans c.nranks_lt
  have hsender := ha.sender r hr
  have hall : ∀ d, r ≠ d → Numbered r (s.sendCount r) (s.comm.metadata (r, d)).sent :=
    hn r hr
  cases call with
  | send messages =>
      simp only [Cluster.call, bind_eq_ok, pure_eq_ok] at hok
      obtain ⟨x, hsend, rfl⟩ := hok
      simp only [Exchange.send, check_eq_ok] at hsend
      have hlog : (fun k => if k = s.number r then s.sendCount r k + messages.length
          else s.sendCount r k) = Function.update (s.sendCount r) (s.number r)
            (s.sendCount r (s.number r) + messages.length) := by
        funext k
        rcases eq_or_ne k (s.number r) with rfl | hk
        · simp
        · simp [hk]
      have hbound := hfits r (s.number r)
      simp only [Global.logSent, Global.put, and_self, if_true] at hbound
      obtain ⟨hown, hothers⟩ := send_loop_numbered (i := c.current s r) hrank
        hsender.next_eq hbound hall hsend.2.2
      refine hn.sends (fun d hd => ?_) hothers fun q hq => ?_
      · have hcounts : (s.logSent r messages).sendCount r = Function.update (s.sendCount r)
            (s.number r) (s.sendCount r (s.number r) + messages.length) := by
          simpa [Global.logSent] using hlog
        rw [hcounts]
        exact hown d hd
      · funext k
        simp [Global.logSent, hq]
  | finish =>
      simp only [Cluster.call, bind_eq_ok, pure_eq_ok] at hok
      obtain ⟨x, hfin, rfl⟩ := hok
      have hcount : ∀ d, (s.exchange r).messagesSentTo d < 2 ^ 64 := fun d =>
        ((hsender.sentTo_le d).trans (hfits r (s.number r))).trans_lt (by norm_num)
      obtain ⟨hown, hothers⟩ := finish_numbered (i := c.current s r) hcount hall hfin
      exact hn.sends hown hothers fun _ _ => rfl
  | progress env => exact absurd rfl (hprogress env)
  | recv =>
      cases hok
      exact hn
  | next =>
      simp only [Cluster.call] at hok
      split at hok
      · cases hok
        exact hn
      · cases hok

/-- A part of `progress` sends no metadata. -/
theorem part_numbered {env : Env c.nranks} {p : Part c.nranks} {x : State} (ha : Agrees c h s)
    (hr : r < c.nranks)
    (hok : part (c.current s r) env p (s.exchange r, s.comm) = .ok x)
    (hn : AllNumbered c s) : AllNumbered c (s.put r x) := by
  have ha' : Agrees c h (s.put r x) := ha.part hr hok
  obtain ⟨hframe, -⟩ := part_keeps (i := c.current s r) (h := fun q => h q r) rfl
    (fun q hq hne => (ha.sender q hq).events r hr (Ne.symm hne)) hok (ha.receiver r hr)
  intro q hq d hqd
  have hsame : (x.2.metadata (q, d)).sent = (s.comm.metadata (q, d)).sent := by
    rcases eq_or_ne d r with rfl | hne
    · have hbefore := ((ha.receiver d hr).peer q hq hqd).metadata_sent
      have hafter := ((ha'.receiver d hr).peer q hq hqd).metadata_sent
      exact hafter.trans hbefore.symm
    · rw [hframe.metadata (q, d) hne]
  show Numbered q (s.sendCount q) (x.2.metadata (q, d)).sent
  rw [hsame]
  exact hn q hq d hqd

end Runs

/-! ## The messages of one exchange -/

/-- Every posted receive belongs to a message in transit. -/
def Owned (n : Nat) (st : TagExchange) : Prop :=
  ∀ id ∈ st.keys, ∃ q < n, ∃ m ∈ st.inTransitMessages q, m.messageId = id

section Fresh

variable {c : Cluster} {h : Rank → Rank → List Event} {s : Global} {r : Rank}

/-- What is recorded of a message of the peer `q` was sent by it. -/
theorem Records.sent {q e : Nat} {xs : List Event} {ms : List TagMessage}
    (hrec : List.Forall₂ (Records q e) xs ms) {m : TagMessage} (hm : m ∈ ms) :
    ∃ msg, Event.app e m.messageId msg ∈ xs := by
  induction hrec with
  | nil => cases hm
  | @cons x m' xs ms hx _ ih =>
      rcases List.mem_cons.mp hm with rfl | hm
      · cases x with
        | marker => exact hx.elim
        | app k id msg =>
            obtain ⟨rfl, rfl, -⟩ := hx
            exact ⟨msg, List.mem_cons_self⟩
      · obtain ⟨msg, hmem⟩ := ih hm
        exact ⟨msg, List.mem_cons_of_mem _ hmem⟩

/-- The id of a message sent to the rank `r` through the exchange `e`, as its receiver reads it. -/
theorem Agrees.sent_id (ha : Agrees c h s) {q e id : Nat} {msg : Message} (hq : q < c.nranks)
    (hr : r < c.nranks) (hne : q ≠ r) (hmem : Event.app e id msg ∈ h q r) :
    idOf (Event.app e id msg).wire.2 = some id ∧ id ≠ terminationSentinel := by
  have hev := (ha.sender q hq).events r hr (Ne.symm hne)
  exact ⟨id_of_combined (hev.id_lt hmem) msg, hev.id_ne hmem⟩

/-- The id of a message that waits is not the id of one in transit. -/
theorem Agrees.fresh (ha : Agrees c h s) (hn : AllNumbered c s) (hfew : Few s)
    (hr : r < c.nranks) (ho : Owned c.nranks (s.exchange r)) {q : Rank} (hq : q < c.nranks)
    {m : TagMessage} (hm : m ∈ (s.exchange r).incomingMessages q) :
    m.messageId ∉ (s.exchange r).keys := by
  intro hkey
  obtain ⟨p, hp, m', hm', hid⟩ := ho _ hkey
  have hrec := ha.receiver r hr
  have hqr : q ≠ r := (hrec.incoming_peerRank hq hm).2
  have hpr : p ≠ r := by
    rintro rfl
    have hself : (s.exchange p).inTransitMessages p = [] := hrec.transit_self
    rw [hself] at hm'
    cases hm'
  have hrank : ∀ k < c.nranks, k < 2 ^ 31 := fun k hk => hk.trans c.nranks_lt
  obtain ⟨done, transit, waiting, last, rest, hs⟩ := (hrec.peer q hq hqr).split
  obtain ⟨msg, hwaits⟩ := Records.sent hs.waiting_records hm
  have heq : h q r = done ++ transit ++ waiting ++ last ++ rest := hs.eq
  have hin : Event.app (s.number r) m.messageId msg ∈ h q r := by
    rw [heq]
    simp only [List.mem_append]
    exact .inl (.inl (.inr hwaits))
  have hsent : (s.comm.metadata (q, r)).sent = (h q r).map Event.wire :=
    (hrec.peer q hq hqr).metadata_sent
  obtain ⟨hread, hsentinel⟩ := ha.sent_id hq hr hqr hin
  rcases eq_or_ne p q with rfl | hpq
  · -- of one rank, no two ids are the same
    obtain ⟨msg', htransit⟩ := Records.sent hs.transit_records hm'
    rw [hid] at htransit
    have hdistinct := (hn p hq r hqr).distinct
    rw [hsent, heq, List.pairwise_map] at hdistinct
    have hpair := (List.pairwise_append.mp (List.pairwise_append.mp
      (List.pairwise_append.mp hdistinct).1).1).2.2 _ (List.mem_append_right _ htransit) _ hwaits
    have hin' : Event.app (s.number r) m.messageId msg' ∈ h p r := by
      rw [heq]
      simp only [List.mem_append]
      exact .inl (.inl (.inl (.inr htransit)))
    exact hsentinel (hpair rfl _ (ha.sent_id hq hr hqr hin').1 hread)
  · -- another rank's ids have its number in their upper half
    obtain ⟨done', transit', waiting', last', rest', hs'⟩ := (hrec.peer p hp hpr).split
    obtain ⟨msg', htransit⟩ := Records.sent hs'.transit_records hm'
    rw [hid] at htransit
    have hin' : Event.app (s.number r) m.messageId msg' ∈ h p r := by
      have heq' : h p r = done' ++ transit' ++ waiting' ++ last' ++ rest' := hs'.eq
      rw [heq']
      simp only [List.mem_append]
      exact .inl (.inl (.inl (.inr htransit)))
    have hsent' : (s.comm.metadata (p, r)).sent = (h p r).map Event.wire :=
      (hrec.peer p hp hpr).metadata_sent
    obtain ⟨k, hk, hdrawn⟩ := (hn q hq r hqr).known _ (hsent ▸ List.mem_map_of_mem hin) _ hread
      hsentinel
    obtain ⟨k', hk', hdrawn'⟩ := (hn p hp r hpr).known _ (hsent' ▸ List.mem_map_of_mem hin') _
      (ha.sent_id hp hr hpr hin').1 hsentinel
    exact hpq (message_id_inj (hrank p hp) (hrank q hq) (hk'.trans (hfew p _))
      (hk.trans (hfew q _)) (hdrawn'.symm.trans hdrawn)).1

end Fresh

end Rapidsmpf.Exchange
