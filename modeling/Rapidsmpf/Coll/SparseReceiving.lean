import Rapidsmpf.Coll.Gathering
import Rapidsmpf.Coll.SparseAlltoall

/-!
# What a SparseAlltoall receives from a source

`Receiving` is the invariant of one source of a rank: of the messages that were sent on the link,
`got` were received and `rest` were not; the items among them are complete, or their receive is
posted, or they wait for it, and the receives are posted in the order of the payloads. The four
parts of `event_loop` keep it, as long as the source sends no message of a later SparseAlltoall
before the one at hand is closed (`Supplied`).
-/

namespace Rapidsmpf.Coll.SparseAlltoall

open Protocol Fallible ListFacts
open AllGather (ofNumber itemsOf)

variable {q r e src : Nat} {st st' : SourceState} {posted posted' : List (Chunk × RecvFuture)}
  {c c' : Comm} {got rest h : List (Nat × Msg)} {a a' : Endpoint} {s s' s₀ : State} {item : Item}
  {link : Rank × Rank} {chunk : Chunk}

/-! ## Messages on a link -/

/-- A contribution has a payload to be sent. -/
def hasPayload (item : Item) : Bool := !item.payload.isEmpty

/-- The contributions whose payloads are sent. -/
def payloadsOf (h : List (Nat × Msg)) : List (Nat × Item) :=
  (itemsOf h).filter fun x => hasPayload x.2

/-- The messages `h` were sent on a link, and the payloads of the contributions among them. -/
structure Feed (c : Comm) (link : Rank × Rank) (h : List (Nat × Msg)) : Prop where
  metadata : (c.metadata link).sent = h.map fun x => (x.1, x.2.serialize)
  payload : (c.payload link).sent.map (fun x => (x.1, x.2.bytes)) =
    (payloadsOf h).map fun x => (x.1, x.2.payload)
  valid : ∀ x ∈ h, x.2.Valid

/-- The messages of a SparseAlltoall are all there: one of them is a finish message, and it tells
their number. -/
def Closed (l : List Msg) : Prop :=
  0 < l.length ∧ l.length < 2 ^ 64 ∧ (l.map Msg.announced).sum = l.length

/-- The source sends no message of a later SparseAlltoall before this one is closed. -/
def Supplied (e : Nat) (h : List (Nat × Msg)) : Prop :=
  ∀ got x rest, h = got ++ x :: rest → (∀ y ∈ x :: rest, e ≤ y.1) →
    x.1 = e ∨ Closed (ofNumber e got)

@[simp] theorem payloads_of_append (h h' : List (Nat × Msg)) :
    payloadsOf (h ++ h') = payloadsOf h ++ payloadsOf h' := by
  simp [payloadsOf]

theorem has_payload_iff (item : Item) : hasPayload item = true ↔ 0 < item.payload.length := by
  simp [hasPayload, List.length_pos_iff]

/-- The feed of a link only depends on what was sent on it. -/
theorem Feed.congr (hfeed : Feed c link h) (hm : (c'.metadata link).sent = (c.metadata link).sent)
    (hp : (c'.payload link).sent = (c.payload link).sent) : Feed c' link h :=
  ⟨by rw [hm, hfeed.metadata], by rw [hp, hfeed.payload], hfeed.valid⟩

/-- The buffer that `deserialize` makes has the size that the message tells. -/
theorem deserialize_size {msg : Bytes} {memType : MemoryType} {b : Buffer}
    (hb : (Chunk.deserialize msg memType).data = some b) :
    b.size = (Chunk.deserialize msg memType).dataSize := by
  rw [Chunk.deserialize] at hb ⊢
  split at hb
  · cases hb
  · next hlength =>
      rw [if_neg hlength]
      cases hb
      exact List.length_replicate

/-! ## The state of a source -/

/-- A chunk that waits for its payload. -/
structure Waits (chunk : Chunk) (item : Item) : Prop where
  heads : chunk.Heads item
  buffer : ∃ b, chunk.data = some b ∧ b.size = chunk.dataSize

/-- A receive that is posted; the payload is among the first ones that were sent. -/
structure Posted (e : Nat) (front : List (Nat × Item)) (x : Chunk × RecvFuture) (item : Item) :
    Prop where
  heads : x.1.Heads item
  empty : x.1.data = none
  position : front[x.2.position]? = some (e, item)

/-- What a rank `r` has of the source `q`. -/
structure Receiving (q r e : Nat) (st : SourceState) (posted : List (Chunk × RecvFuture)) (c : Comm)
    (got rest : List (Nat × Msg)) (front : List (Nat × Item))
    (complete pending waiting : List Item) : Prop where
  metadata_taken : (c.metadata (q, r)).taken = got.map Prod.fst
  payload_taken : (c.payload (q, r)).taken = front.map Prod.fst
  got_le : ∀ x ∈ got, x.1 ≤ e
  rest_le : ∀ x ∈ rest, e ≤ x.1
  received : st.receivedCount = (ofNumber e got).length % 2 ^ 64
  expected : st.expectedCount = ((ofNumber e got).map Msg.announced).sum
  items : (complete ++ (pending ++ waiting)).Perm ((ofNumber e got).filterMap Msg.item?)
  payloads : payloadsOf got = front ++ (waiting.filter hasPayload).map fun item => (e, item)
  chunks : List.Forall₂ (fun chunk item => Chunk.Says chunk (.data item)) st.chunks complete
  posted : List.Forall₂ (Posted e front) posted pending
  incoming : List.Forall₂ Waits st.incoming waiting

/-- The receives that are posted for a source. -/
def postedFor (q : Rank) (a : Endpoint) : List (Chunk × RecvFuture) :=
  a.receivePosted.filter fun x => x.2.src = q

/-- A rank at work on what comes from the source `q`. -/
def Working (q r e : Nat) (h : List (Nat × Msg)) (s : State) : Prop :=
  Feed s.2 (q, r) h ∧ ∃ got rest front complete pending waiting, got ++ rest = h ∧
    Receiving q r e (s.1.sourceStates q) (postedFor q s.1) s.2 got rest front complete pending
      waiting

/-- Every chunk a rank has received is from the source that it is kept for. -/
structure Origins (a : Endpoint) : Prop where
  incoming : ∀ src, ∀ chunk ∈ (a.sourceStates src).incoming, chunk.origin = src
  posted : ∀ x ∈ a.receivePosted, x.1.origin = x.2.src

/-- What receiving from the source `src` leaves alone. -/
structure Takes (src r : Nat) (s s' : State) : Prop where
  members : s'.1.toMembers = s.1.toMembers
  srcs : s'.1.srcs = s.1.srcs
  others : ∀ q ≠ src, s'.1.sourceStates q = s.1.sourceStates q
  posted : ∀ q ≠ src, postedFor q s'.1 = postedFor q s.1
  metadata_sent : ∀ k, (s'.2.metadata k).sent = (s.2.metadata k).sent
  payload_sent : ∀ k, (s'.2.payload k).sent = (s.2.payload k).sent
  metadata : ∀ k ≠ (src, r), s'.2.metadata k = s.2.metadata k
  payload : ∀ k ≠ (src, r), s'.2.payload k = s.2.payload k

theorem Takes.refl (src r : Nat) (s : State) : Takes src r s s :=
  ⟨rfl, rfl, fun _ _ => rfl, fun _ _ => rfl, fun _ => rfl, fun _ => rfl, fun _ _ => rfl,
    fun _ _ => rfl⟩

theorem Takes.trans {s₁ s₂ s₃ : State} (h : Takes src r s₁ s₂) (h' : Takes src r s₂ s₃) :
    Takes src r s₁ s₃ where
  members := h'.members.trans h.members
  srcs := h'.srcs.trans h.srcs
  others := fun q hq => (h'.others q hq).trans (h.others q hq)
  posted := fun q hq => (h'.posted q hq).trans (h.posted q hq)
  metadata_sent := fun k => (h'.metadata_sent k).trans (h.metadata_sent k)
  payload_sent := fun k => (h'.payload_sent k).trans (h.payload_sent k)
  metadata := fun k hk => (h'.metadata k hk).trans (h.metadata k hk)
  payload := fun k hk => (h'.payload k hk).trans (h.payload k hk)

/-- Receiving from another source does not matter. -/
theorem Working.other (hw : Working q r e h s) (ht : Takes src r s s') (hne : q ≠ src) :
    Working q r e h s' := by
  obtain ⟨hfeed, got, rest, front, complete, pending, waiting, hsplit, hrec⟩ := hw
  have hlink : (q, r) ≠ (src, r) := fun heq => hne (congrArg Prod.fst heq)
  refine ⟨hfeed.congr (ht.metadata_sent _) (ht.payload_sent _), got, rest, front, complete, pending,
    waiting, hsplit, ?_⟩
  rw [ht.others q hne, ht.posted q hne]
  exact { hrec with
    metadata_taken := by rw [ht.metadata _ hlink, hrec.metadata_taken]
    payload_taken := by rw [ht.payload _ hlink, hrec.payload_taken] }

/-! ## Metadata messages -/

/-- A metadata message is received. -/
theorem recv_from_eq {msg : Bytes} (hrecv : c.recvFrom src r e = some (msg, c')) :
    (∃ x, (c.metadata (src, r)).next? = some x ∧ x.2 = msg) ∧
      c' = { c with metadata :=
        Function.update c.metadata (src, r) ((c.metadata (src, r)).post e) } := by
  obtain ⟨x, hnext, hx⟩ := Option.map_eq_some_iff.mp hrecv
  obtain ⟨hmsg, hc⟩ := Prod.mk.inj hx
  exact ⟨⟨x, hnext, hmsg⟩, hc.symm⟩

theorem recv_from_sent {msg : Bytes} (hrecv : c.recvFrom src r e = some (msg, c'))
    (k : Rank × Rank) : (c'.metadata k).sent = (c.metadata k).sent := by
  obtain ⟨-, rfl⟩ := recv_from_eq hrecv
  by_cases hk : k = (src, r)
  · subst hk
    simp
  · simp [Function.update_of_ne hk]

/-- The next metadata message is the first of those not received. -/
theorem Receiving.next {msg : Bytes} {front : List (Nat × Item)}
    {complete pending waiting : List Item} (hfeed : Feed c (q, r) (got ++ rest))
    (hrec : Receiving q r e st posted c got rest front complete pending waiting)
    (hrecv : c.recvFrom q r e = some (msg, c')) :
    ∃ x rest', rest = x :: rest' ∧ msg = x.2.serialize := by
  obtain ⟨⟨y, hnext, rfl⟩, -⟩ := recv_from_eq hrecv
  have hmatched : (c.metadata (q, r)).matched = got.length := by
    rw [Channel.matched, hrec.metadata_taken, List.length_map]
  rw [Channel.next?, hmatched, hfeed.metadata, List.map_append,
    List.getElem?_append_right (by simp), List.length_map, Nat.sub_self] at hnext
  cases rest with
  | nil => cases hnext
  | cons x rest' =>
      obtain rfl : (x.1, x.2.serialize) = y := by simpa using hnext
      exact ⟨x, rest', rfl, rfl⟩

/-- The body of the loop that receives metadata. -/
theorem Receiving.receive {m : Msg} {front : List (Nat × Item)}
    {complete pending waiting : List Item} {memType : MemoryType}
    (hrec : Receiving q r e st posted c got ((e, m) :: rest) front complete pending waiting)
    (hvalid : m.Valid) (hrecv : c.recvFrom q r e = some (m.serialize, c'))
    (hok : receiveMessage q (.deserialize m.serialize memType) st = .ok st') :
    ∃ waiting', Receiving q r e st' posted c' (got ++ [(e, m)]) rest front complete pending
      waiting' := by
  obtain ⟨-, rfl⟩ := recv_from_eq hrecv
  have hreceived : (st.receivedCount + 1) % 2 ^ 64 =
      (ofNumber e (got ++ [(e, m)])).length % 2 ^ 64 := by
    rw [hrec.received, AllGather.of_number_append, AllGather.of_number_single, List.length_append,
      List.length_singleton, Nat.mod_add_mod]
  have hgot : ∀ x ∈ got ++ [(e, m)], x.1 ≤ e := by
    intro x hx
    rcases List.mem_append.mp hx with hx | hx
    · exact hrec.got_le x hx
    · rw [List.mem_singleton.mp hx]
  have hrest : ∀ x ∈ rest, e ≤ x.1 := fun x hx => hrec.rest_le x (List.mem_cons_of_mem _ hx)
  have htaken : (((c.metadata (q, r)).post e).taken) = (got ++ [(e, m)]).map Prod.fst := by
    rw [Channel.taken_post, hrec.metadata_taken, List.map_append]
    rfl
  cases m with
  | data item =>
      obtain ⟨hheads, b, hb⟩ := Chunk.deserialize_data hvalid memType
      have hfinish : (Chunk.deserialize (Msg.data item).serialize memType).isFinish = false := by
        simp [Chunk.isFinish, hheads.metadata]
      simp only [receiveMessage, hfinish] at hok
      split at hok
      · cases hok
      · cases pure_eq_ok.mp hok
        refine ⟨waiting ++ [item], ⟨?_, hrec.payload_taken, hgot, hrest, hreceived, ?_, ?_, ?_,
          hrec.chunks, hrec.posted, ?_⟩⟩
        · simpa using htaken
        · rw [hrec.expected]
          simp [Msg.announced]
        · have hitems := hrec.items.append_right [item]
          simpa [Msg.item?] using hitems
        · rw [payloads_of_append, hrec.payloads, List.filter_append, List.map_append,
            List.append_assoc]
          by_cases hsize : hasPayload item = true
          · simp [payloadsOf, itemsOf, Msg.item?, hsize]
          · simp [payloadsOf, itemsOf, Msg.item?, hsize]
        · exact List.rel_append hrec.incoming (.cons ⟨hheads, b, hb, deserialize_size hb⟩ .nil)
  | finish id =>
      have hmsg := Chunk.deserialize_finish hvalid memType
      have hfinish := hmsg.is_finish_eq
      simp only [Msg.isFinish] at hfinish
      simp only [receiveMessage, hfinish, if_true, hmsg.sequence_eq] at hok
      split at hok
      · cases hok
      · split at hok
        · cases hok
        · next hzero =>
            cases pure_eq_ok.mp hok
            have hsum : ((ofNumber e got).map Msg.announced).sum = 0 := by
              rw [← hrec.expected]
              exact not_not.mp hzero
            refine ⟨waiting, ⟨?_, hrec.payload_taken, hgot, hrest, hreceived, ?_, ?_, ?_,
              hrec.chunks, hrec.posted, hrec.incoming⟩⟩
            · simpa using htaken
            · simp [hsum]
            · have hnone : [Msg.finish id].filterMap Msg.item? = [] := rfl
              simpa [hnone] using hrec.items
            · rw [payloads_of_append, hrec.payloads]
              simp [payloadsOf, itemsOf, Msg.item?]

/-- A collective that is closed needs no more messages. -/
theorem Receiving.ready {front : List (Nat × Item)} {complete pending waiting : List Item}
    (hrec : Receiving q r e st posted c got rest front complete pending waiting)
    (hclosed : Closed (ofNumber e got)) : st.ready = true := by
  obtain ⟨hpos, hlt, hsum⟩ := hclosed
  rw [SourceState.ready, hrec.expected, hrec.received, hsum, Nat.mod_eq_of_lt hlt]
  simpa using hpos

/-- The loop that receives metadata leaves the other links alone, and checks where the messages come
from. -/
theorem receive_from_frame {memType : Nat → MemoryType} {arrived : Nat}
    (hok : receiveFrom r e src memType arrived (st, c) = .ok (st', c')) :
    (∀ k, (c'.metadata k).sent = (c.metadata k).sent) ∧ c'.payload = c.payload ∧
      (∀ k ≠ (src, r), c'.metadata k = c.metadata k) ∧
      ((∀ chunk ∈ st.incoming, chunk.origin = src) →
        ∀ chunk ∈ st'.incoming, chunk.origin = src) := by
  induction arrived generalizing st c with
  | zero =>
      cases pure_eq_ok.mp hok
      exact ⟨fun _ => rfl, rfl, fun _ _ => rfl, id⟩
  | succ arrived ih =>
      simp only [receiveFrom] at hok
      split at hok
      · cases pure_eq_ok.mp hok
        exact ⟨fun _ => rfl, rfl, fun _ _ => rfl, id⟩
      · split at hok
        · cases pure_eq_ok.mp hok
          exact ⟨fun _ => rfl, rfl, fun _ _ => rfl, id⟩
        · next msg c₁ hrecv =>
            obtain ⟨st₁, hmessage, hrest⟩ := bind_eq_ok.mp hok
            obtain ⟨hsent, hpayload, hothers, horigins⟩ := ih hrest
            have hfirst := recv_from_sent hrecv
            obtain ⟨-, rfl⟩ := recv_from_eq hrecv
            refine ⟨fun k => (hsent k).trans (hfirst k), hpayload, fun k hk => ?_, fun hst => ?_⟩
            · rw [hothers k hk]
              exact Function.update_of_ne hk _ _
            · refine horigins ?_
              simp only [receiveMessage] at hmessage
              split at hmessage
              · cases hmessage
              · next horigin =>
                  split at hmessage
                  · split at hmessage
                    · cases hmessage
                    · cases pure_eq_ok.mp hmessage
                      exact hst
                  · cases pure_eq_ok.mp hmessage
                    intro chunk hchunk
                    rcases List.mem_append.mp hchunk with hchunk | hchunk
                    · exact hst chunk hchunk
                    · rw [List.mem_singleton.mp hchunk]
                      exact not_not.mp horigin

/-- The loop that receives metadata receives messages of its own SparseAlltoall. -/
theorem Receiving.receive_from {memType : Nat → MemoryType} {arrived : Nat}
    {front : List (Nat × Item)} {complete pending waiting : List Item}
    (hfeed : Feed c (q, r) (got ++ rest)) (hsupplied : Supplied e (got ++ rest))
    (hrec : Receiving q r e st posted c got rest front complete pending waiting)
    (hok : receiveFrom r e q memType arrived (st, c) = .ok (st', c')) :
    ∃ got' rest' waiting', got' ++ rest' = got ++ rest ∧
      Receiving q r e st' posted c' got' rest' front complete pending waiting' := by
  induction arrived generalizing st c got rest waiting with
  | zero =>
      cases pure_eq_ok.mp hok
      exact ⟨got, rest, waiting, rfl, hrec⟩
  | succ arrived ih =>
      simp only [receiveFrom] at hok
      split at hok
      · cases pure_eq_ok.mp hok
        exact ⟨got, rest, waiting, rfl, hrec⟩
      · next hready =>
          split at hok
          · cases pure_eq_ok.mp hok
            exact ⟨got, rest, waiting, rfl, hrec⟩
          · next msg c₁ hrecv =>
              obtain ⟨st₁, hmessage, hloop⟩ := bind_eq_ok.mp hok
              obtain ⟨⟨number, m⟩, rest, rfl, rfl⟩ := hrec.next hfeed hrecv
              have hvalid : m.Valid := hfeed.valid (number, m) (by simp)
              obtain rfl : number = e :=
                (hsupplied got (number, m) rest rfl hrec.rest_le).resolve_right
                  fun hclosed => hready (hrec.ready hclosed)
              obtain ⟨waiting₁, hrec₁⟩ := hrec.receive hvalid hrecv hmessage
              have hsplit : got ++ (number, m) :: rest = got ++ [(number, m)] ++ rest := by simp
              have hpayload : (c₁.payload (q, r)).sent = (c.payload (q, r)).sent := by
                obtain ⟨-, rfl⟩ := recv_from_eq hrecv
                rfl
              rw [hsplit] at hfeed hsupplied ⊢
              exact ih (hfeed.congr (recv_from_sent hrecv _) hpayload) hsupplied hrec₁ hloop

theorem Takes.receive_from {memType : Nat → MemoryType} {arrived : Nat}
    (hok : receiveFrom r e src memType arrived (s.1.sourceStates src, s.2) = .ok (st', c')) :
    Takes src r s (s.1.setSource src st', c') := by
  obtain ⟨hsent, hpayload, hothers, -⟩ := receive_from_frame hok
  exact ⟨rfl, rfl, fun q hq => Function.update_of_ne hq _ _, fun _ _ => rfl, hsent,
    fun k => by rw [hpayload], hothers, fun k _ => by rw [hpayload]⟩

theorem Origins.receive_from {memType : Nat → MemoryType} {arrived : Nat} (ho : Origins s.1)
    (hok : receiveFrom r e src memType arrived (s.1.sourceStates src, s.2) = .ok (st', c')) :
    Origins (s.1.setSource src st') := by
  obtain ⟨-, -, -, horigins⟩ := receive_from_frame hok
  refine ⟨fun q chunk hchunk => ?_, ho.posted⟩
  by_cases hq : q = src
  · subst hq
    simp only [Endpoint.setSource, Function.update_self] at hchunk
    exact horigins (ho.incoming q) chunk hchunk
  · simp only [Endpoint.setSource, Function.update_of_ne hq] at hchunk
    exact ho.incoming q chunk hchunk

theorem Working.receive_from {memType : Nat → MemoryType} {arrived : Nat}
    (hw : Working q r e h s) (hsupplied : Supplied e h)
    (hok : receiveFrom r e q memType arrived (s.1.sourceStates q, s.2) = .ok (st', c')) :
    Working q r e h (s.1.setSource q st', c') := by
  obtain ⟨hfeed, got, rest, front, complete, pending, waiting, rfl, hrec⟩ := hw
  obtain ⟨hsent, hpayload, -, -⟩ := receive_from_frame hok
  obtain ⟨got', rest', waiting', hsplit, hrec'⟩ := hrec.receive_from hfeed hsupplied hok
  refine ⟨hfeed.congr (hsent _) (by rw [hpayload]), got', rest', front, complete, pending, waiting',
    hsplit, ?_⟩
  simpa [Endpoint.setSource, postedFor] using hrec'

/-! ## Payloads -/

theorem Takes.post_receive (hok : postReceive r e src s = .ok s') : Takes src r s s' := by
  obtain ⟨a, c⟩ := s
  simp only [postReceive] at hok
  split at hok
  · cases hok
  · split at hok
    · cases pure_eq_ok.mp hok
      exact ⟨rfl, rfl, fun q hq => Function.update_of_ne hq _ _, fun _ _ => rfl, fun _ => rfl,
        fun _ => rfl, fun _ _ => rfl, fun _ _ => rfl⟩
    · obtain ⟨⟨buf, chunk⟩, -, hs⟩ := bind_eq_ok.mp hok
      cases pure_eq_ok.mp hs
      refine ⟨rfl, rfl, fun q hq => Function.update_of_ne hq _ _, fun q hq => ?_, fun _ => rfl,
        fun k => ?_, fun _ _ => rfl, fun k hk => Function.update_of_ne hk _ _⟩
      · simp [postedFor, Comm.recv, hq.symm]
      · by_cases hk : k = (src, r)
        · subst hk
          simp [Comm.recv]
        · simp [Comm.recv, Function.update_of_ne hk]

theorem release_data_buffer_origin {b : Buffer} {chunk' : Chunk}
    (hok : chunk.releaseDataBuffer = .ok (b, chunk')) :
    chunk.data = some b ∧ chunk' = { chunk with data := none } := by
  rw [Chunk.releaseDataBuffer] at hok
  split at hok
  · next hdata =>
      obtain ⟨rfl, rfl⟩ := Prod.mk.inj (pure_eq_ok.mp hok)
      exact ⟨hdata, rfl⟩
  · cases hok

theorem Origins.post_receive (ho : Origins s.1) (hok : postReceive r e src s = .ok s') :
    Origins s'.1 := by
  obtain ⟨a, c⟩ := s
  simp only [postReceive] at hok
  split at hok
  · cases hok
  · next chunk rest hincoming =>
      have hfirst : chunk.origin = src := ho.incoming src chunk (by
        rw [hincoming]
        exact List.mem_cons_self)
      have hrest : ∀ st : SourceState, st.incoming = rest →
          ∀ q, ∀ chunk ∈ ((a.setSource src st).sourceStates q).incoming, chunk.origin = q := by
        intro st hst q chunk hchunk
        by_cases hq : q = src
        · subst hq
          simp only [Endpoint.setSource, Function.update_self, hst] at hchunk
          refine ho.incoming q chunk ?_
          rw [hincoming]
          exact List.mem_cons_of_mem _ hchunk
        · simp only [Endpoint.setSource, Function.update_of_ne hq] at hchunk
          exact ho.incoming q chunk hchunk
      split at hok
      · cases pure_eq_ok.mp hok
        exact ⟨hrest _ rfl, ho.posted⟩
      · obtain ⟨⟨buf, chunk'⟩, hrelease, hs⟩ := bind_eq_ok.mp hok
        cases pure_eq_ok.mp hs
        obtain ⟨-, rfl⟩ := release_data_buffer_origin hrelease
        refine ⟨hrest _ rfl, fun x hx => ?_⟩
        rcases List.mem_append.mp hx with hx | hx
        · exact ho.posted x hx
        · rw [List.mem_singleton.mp hx]
          exact hfirst

theorem Posted.append {front : List (Nat × Item)} {x : Chunk × RecvFuture}
    (hx : Posted e front x item) (more : List (Nat × Item)) : Posted e (front ++ more) x item where
  heads := hx.heads
  empty := hx.empty
  position := by
    obtain ⟨hlt, -⟩ := List.getElem?_eq_some_iff.mp hx.position
    rw [List.getElem?_append_left hlt]
    exact hx.position

/-- The first chunk of `incoming` is complete, or its receive is posted. -/
theorem Working.post_receive (hw : Working q r e h s) (hok : postReceive r e q s = .ok s') :
    Working q r e h s' := by
  have htakes := Takes.post_receive hok
  obtain ⟨a, c⟩ := s
  obtain ⟨hfeed, got, rest, front, complete, pending, waiting, hsplit, hrec⟩ := hw
  have hfeed' := hfeed.congr (htakes.metadata_sent _) (htakes.payload_sent _)
  simp only [postReceive] at hok
  split at hok
  · cases hok
  · next chunk chunks hincoming =>
      have hwaits := hrec.incoming
      rw [hincoming] at hwaits
      obtain ⟨item, waiting, hwait, hlater, rfl⟩ := List.forall₂_cons_left_iff.mp hwaits
      obtain ⟨b, hb, hbsize⟩ := hwait.buffer
      split at hok
      · next hzero =>
          -- nothing is sent for an empty payload
          cases pure_eq_ok.mp hok
          have hempty : item.payload = [] := by
            rw [← List.length_eq_zero_iff, ← hwait.heads.dataSize, hzero]
          have hmsg : chunk.Says (.data item) := by
            refine ⟨hwait.heads.id, hwait.heads.metadata, ?_, hwait.heads.dataSize⟩
            rw [hb, Option.map_some, hempty, List.length_eq_zero_iff.mp (hbsize.trans hzero)]
          refine ⟨hfeed', got, rest, front, complete ++ [item], pending, waiting, hsplit, ?_⟩
          simp only [Endpoint.setSource, Function.update_self]
          exact { hrec with
            items := by
              refine List.Perm.trans ?_ hrec.items
              rw [List.append_assoc]
              have hmiddle : (item :: (pending ++ waiting)).Perm (pending ++ item :: waiting) :=
                List.perm_middle.symm
              exact hmiddle.append_left complete
            payloads := by
              rw [hrec.payloads]
              simp [hasPayload, hempty]
            chunks := List.rel_append hrec.chunks (.cons hmsg .nil)
            incoming := hlater }
      · next hsize =>
          obtain ⟨⟨buf, chunk'⟩, hrelease, hs⟩ := bind_eq_ok.mp hok
          cases pure_eq_ok.mp hs
          obtain ⟨hbuf, rfl⟩ := release_data_buffer_origin hrelease
          have hpayload : hasPayload item = true := by
            rw [has_payload_iff, ← hwait.heads.dataSize]
            exact Nat.pos_of_ne_zero hsize
          refine ⟨hfeed', got, rest, front ++ [(e, item)], complete, pending ++ [item], waiting,
            hsplit, ?_⟩
          simp only [Endpoint.setSource, Function.update_self]
          exact { hrec with
            payload_taken := by
              simpa [Comm.recv] using hrec.payload_taken
            items := by
              have hitems := hrec.items
              rwa [List.append_cons] at hitems
            payloads := by
              rw [hrec.payloads]
              simp [hpayload]
            posted := by
              have hlast : Posted e (front ++ [(e, item)]) ({ chunk with data := none },
                  (c.recv q r e buf).1) item := by
                refine ⟨⟨hwait.heads.id, hwait.heads.metadata, hwait.heads.dataSize⟩, rfl, ?_⟩
                have hmatched : (c.payload (q, r)).matched = front.length := by
                  rw [Channel.matched, hrec.payload_taken, List.length_map]
                simp [Comm.recv, hmatched]
              have hposted := List.rel_append
                (hrec.posted.imp fun _ _ hx => hx.append [(e, item)]) (.cons hlast .nil)
              simpa [postedFor, Comm.recv] using hposted
            incoming := hlater }

/-! ## Complete receives -/

/-- An entry is erased from a list; what the others of its kind are. -/
theorem filter_eraseIdx {α : Type} {l : List α} {k : Nat} {x : α} (p : α → Bool)
    (hx : l[k]? = some x) :
    (p x = true →
      ∃ j, (l.filter p)[j]? = some x ∧ (l.eraseIdx k).filter p = (l.filter p).eraseIdx j) ∧
      (p x = false → (l.eraseIdx k).filter p = l.filter p) := by
  induction l generalizing k with
  | nil => cases hx
  | cons y l ih =>
      cases k with
      | zero =>
          obtain rfl : y = x := by simpa using hx
          refine ⟨fun hp => ⟨0, ?_, ?_⟩, fun hp => ?_⟩
          · simp [hp]
          · simp [hp]
          · simp [hp]
      | succ k =>
          obtain ⟨hkeep, hdrop⟩ := ih (k := k) (by simpa using hx)
          refine ⟨fun hp => ?_, fun hp => ?_⟩
          · obtain ⟨j, hj, herase⟩ := hkeep hp
            by_cases hy : p y = true
            · exact ⟨j + 1, by simpa [hy] using hj, by simp [hy, herase]⟩
            · exact ⟨j, by simpa [hy] using hj, by simp [hy, herase]⟩
          · by_cases hy : p y = true
            · simp [hy, hdrop hp]
            · simp [hy, hdrop hp]

/-- A receive is reported complete: its chunk is with the others of its source. -/
theorem complete_receive_eq {k : Nat} (ho : Origins s.1) (hok : completeReceive r s k = .ok s') :
    ∃ chunk f buf, s.1.receivePosted[k]? = some (chunk, f) ∧ s.2.releaseData r f = .ok buf ∧
      chunk.attachDataBuffer buf = .ok { chunk with data := some buf } ∧
      s' = ({ s.1.setSource f.src { s.1.sourceStates f.src with
          chunks := (s.1.sourceStates f.src).chunks ++ [{ chunk with data := some buf }] } with
        receivePosted := s.1.receivePosted.eraseIdx k }, s.2) := by
  obtain ⟨a, c⟩ := s
  simp only [completeReceive] at hok
  split at hok
  · cases hok
  · next chunk f hk =>
      obtain ⟨buf, hbuf, hok⟩ := bind_eq_ok.mp hok
      obtain ⟨chunk', hattach, hok⟩ := bind_eq_ok.mp hok
      have hchunk' : chunk' = { chunk with data := some buf } := by
        rw [Chunk.attachDataBuffer] at hattach
        split at hattach
        · cases hattach
        · split at hattach
          · cases hattach
          · exact (pure_eq_ok.mp hattach).symm
      subst hchunk'
      have horigin : chunk.origin = f.src := ho.posted (chunk, f) (List.mem_of_getElem? hk)
      split at hok
      · cases hok
      · cases pure_eq_ok.mp hok
        refine ⟨chunk, f, buf, hk, hbuf, hattach, ?_⟩
        rw [← horigin]
        rfl

theorem Takes.complete_receive {k : Nat} (ho : Origins s.1)
    (hok : completeReceive r s k = .ok s') : ∃ src, Takes src r s s' := by
  obtain ⟨chunk, f, buf, hk, -, -, rfl⟩ := complete_receive_eq ho hok
  refine ⟨f.src, rfl, rfl, fun q hq => Function.update_of_ne hq _ _, fun q hq => ?_, fun _ => rfl,
    fun _ => rfl, fun _ _ => rfl, fun _ _ => rfl⟩
  exact (filter_eraseIdx (fun x : Chunk × RecvFuture => x.2.src = q) hk).2 (by simpa using hq.symm)

theorem Origins.complete_receive {k : Nat} (ho : Origins s.1)
    (hok : completeReceive r s k = .ok s') : Origins s'.1 := by
  obtain ⟨chunk, f, buf, hk, -, -, rfl⟩ := complete_receive_eq ho hok
  refine ⟨fun q chunk hchunk => ?_, fun x hx => ho.posted x (List.mem_of_mem_eraseIdx hx)⟩
  by_cases hq : q = f.src
  · subst hq
    simp only [Endpoint.setSource, Function.update_self] at hchunk
    exact ho.incoming _ chunk hchunk
  · simp only [Endpoint.setSource, Function.update_of_ne hq] at hchunk
    exact ho.incoming q chunk hchunk

/-- A receive that is complete has the payload of its item. -/
theorem Receiving.release {front : List (Nat × Item)} {complete pending waiting : List Item}
    {f : RecvFuture} {buf : Buffer} (hfeed : Feed c (q, r) (got ++ rest))
    (hrec : Receiving q r e st posted c got rest front complete pending waiting)
    (hposition : front[f.position]? = some (e, item)) (hsrc : f.src = q)
    (hok : c.releaseData r f = .ok buf) : buf.bytes = item.payload := by
  obtain ⟨hlt, -⟩ := List.getElem?_eq_some_iff.mp hposition
  have hfirst : (payloadsOf (got ++ rest))[f.position]? = some (e, item) := by
    rw [payloads_of_append, hrec.payloads, List.append_assoc, List.getElem?_append_left hlt]
    exact hposition
  have hpayload := congrArg (·[f.position]?) hfeed.payload
  simp only [List.getElem?_map, hfirst, Option.map_some] at hpayload
  obtain ⟨x, hx, heq⟩ := Option.map_eq_some_iff.mp hpayload
  simp only [Comm.releaseData, hsrc, Channel.content?, hx, Option.map_some] at hok
  cases pure_eq_ok.mp hok
  rw [Buffer.bytes_fill]
  exact congrArg Prod.snd heq

/-- A receive is reported complete. -/
theorem Working.complete_receive {k : Nat} (ho : Origins s.1) (hw : Working q r e h s)
    (hok : completeReceive r s k = .ok s') : Working q r e h s' := by
  obtain ⟨chunk, f, buf, hk, hrelease, hattach, rfl⟩ := complete_receive_eq ho hok
  by_cases hq : q = f.src
  · obtain ⟨hfeed, got, rest, front, complete, pending, waiting, rfl, hrec⟩ := hw
    obtain ⟨j, hj, herase⟩ :=
      (filter_eraseIdx (fun x : Chunk × RecvFuture => x.2.src = q) hk).1 (by simpa using hq.symm)
    obtain ⟨item, hitem, hposted⟩ := forall₂_getElem? hrec.posted hj
    have hbytes := hrec.release hfeed hposted.position hq.symm hrelease
    have hmsg := (hposted.heads.attach hposted.empty hbytes).2
    refine ⟨hfeed, got, rest, front, complete ++ [item], pending.eraseIdx j, waiting, rfl, ?_⟩
    subst hq
    simp only [Endpoint.setSource, Function.update_self]
    exact { hrec with
      items := by
        refine List.Perm.trans ?_ hrec.items
        rw [List.append_assoc, ← List.append_assoc [item]]
        obtain ⟨hlt, rfl⟩ := List.getElem?_eq_some_iff.mp hitem
        exact ((List.getElem_cons_eraseIdx_perm hlt).append_right _).append_left _
      chunks := List.rel_append hrec.chunks (.cons hmsg .nil)
      posted := by
        rw [postedFor, herase]
        exact forall₂_eraseIdx hrec.posted j }
  · refine hw.other ⟨rfl, rfl, fun q hq => Function.update_of_ne hq _ _, fun q hq => ?_,
      fun _ => rfl, fun _ => rfl, fun _ _ => rfl, fun _ _ => rfl⟩ hq
    exact (filter_eraseIdx (fun x : Chunk × RecvFuture => x.2.src = q) hk).2
      (by simpa using hq.symm)

/-! ## The receiving parts of `event_loop` -/

/-- What receiving leaves alone: the members of the sending part, what was sent, and the links to
other ranks. -/
structure Receives (r : Nat) (s s' : State) : Prop where
  members : s'.1.toMembers = s.1.toMembers
  srcs : s'.1.srcs = s.1.srcs
  metadata_sent : ∀ k, (s'.2.metadata k).sent = (s.2.metadata k).sent
  payload_sent : ∀ k, (s'.2.payload k).sent = (s.2.payload k).sent
  metadata : ∀ k, k.2 ≠ r → s'.2.metadata k = s.2.metadata k
  payload : ∀ k, k.2 ≠ r → s'.2.payload k = s.2.payload k

/-- What receiving keeps of every source. -/
structure Receipt (r e : Nat) (s₀ s : State) : Prop where
  origins : Origins s.1
  frame : Receives r s₀ s
  working : ∀ q h, (q ∈ s₀.1.srcs → Supplied e h) → Working q r e h s₀ → Working q r e h s

theorem Receipt.refl (ho : Origins s.1) : Receipt r e s s :=
  ⟨ho, ⟨rfl, rfl, fun _ => rfl, fun _ => rfl, fun _ _ => rfl, fun _ _ => rfl⟩, fun _ _ _ hw => hw⟩

theorem Receives.takes (hs : Receives r s₀ s) (ht : Takes src r s s') : Receives r s₀ s' where
  members := ht.members.trans hs.members
  srcs := ht.srcs.trans hs.srcs
  metadata_sent := fun k => (ht.metadata_sent k).trans (hs.metadata_sent k)
  payload_sent := fun k => (ht.payload_sent k).trans (hs.payload_sent k)
  metadata := fun k hk =>
    (ht.metadata k fun heq => hk (congrArg Prod.snd heq)).trans (hs.metadata k hk)
  payload := fun k hk =>
    (ht.payload k fun heq => hk (congrArg Prod.snd heq)).trans (hs.payload k hk)

/-- A step that receives from one source. -/
theorem Receipt.takes (hs : Receipt r e s₀ s) (ht : Takes src r s s') (ho : Origins s'.1)
    (hw : ∀ h, (src ∈ s₀.1.srcs → Supplied e h) → Working src r e h s → Working src r e h s') :
    Receipt r e s₀ s' where
  origins := ho
  frame := hs.frame.takes ht
  working := fun q h hsupplied hworking => by
    have hworking := hs.working q h hsupplied hworking
    by_cases hq : q = src
    · subst hq
      exact hw h hsupplied hworking
    · exact hworking.other ht hq

/-- `receive_metadata_messages`. -/
theorem Receipt.receive_metadata {memType : Rank → Nat → MemoryType} {arrived : Rank → Nat}
    (hs : Receipt r e s₀ s) (hok : receiveMetadataMessages r e memType arrived s = .ok s') :
    Receipt r e s₀ s' := by
  have hsrcs := hs.frame.srcs
  refine foldlM_invariant (fun src hsrc s₁ s₂ hs₁ hstep => ?_) hok hs
  rw [hsrcs] at hsrc
  obtain ⟨⟨st, c⟩, hreceive, hs₂⟩ := bind_eq_ok.mp hstep
  cases pure_eq_ok.mp hs₂
  exact hs₁.takes (.receive_from hreceive) (hs₁.origins.receive_from hreceive)
    fun h hsupplied hw => hw.receive_from (hsupplied hsrc) hreceive

/-- `receive_data_messages`. -/
theorem Receipt.receive_data {allocated : Rank → Nat → Bool} (hs : Receipt r e s₀ s)
    (hok : receiveDataMessages r e allocated s = .ok s') : Receipt r e s₀ s' := by
  refine foldlM_invariant (fun src _ s₁ s₂ hs₁ hsource => ?_) hok hs
  refine foldlM_invariant (fun _ _ s₃ s₄ hs₃ hstep => ?_) hsource hs₁
  exact hs₃.takes (.post_receive hstep) (hs₃.origins.post_receive hstep)
    fun h _ hw => hw.post_receive hstep

/-- `complete_data_messages`. -/
theorem Receipt.complete_data {ks : List Nat} (hs : Receipt r e s₀ s)
    (hok : ks.foldlM (completeReceive r) s = .ok s') : Receipt r e s₀ s' := by
  refine foldlM_invariant (fun k _ s₁ s₂ hs₁ hstep => ?_) hok hs
  obtain ⟨src, htakes⟩ := Takes.complete_receive hs₁.origins hstep
  exact hs₁.takes htakes (hs₁.origins.complete_receive hstep)
    fun h _ hw => hw.complete_receive hs₁.origins hstep

/-! ## What an endpoint delivers -/

/-- A source that is ready: the messages that were received tell their number. -/
theorem Receiving.ready_iff {front : List (Nat × Item)} {complete pending waiting : List Item}
    (hrec : Receiving q r e st posted c got rest front complete pending waiting)
    (hlt : (ofNumber e got).length < 2 ^ 64) : st.ready = true ↔ Closed (ofNumber e got) := by
  refine ⟨fun hready => ?_, hrec.ready⟩
  simp only [SourceState.ready, Bool.and_eq_true, decide_eq_true_eq, hrec.expected,
    hrec.received, Nat.mod_eq_of_lt hlt] at hready
  exact ⟨by omega, hlt, hready.2⟩

/-- The chunks of a list of contributions are released. -/
theorem release_all {chunks : List Chunk} {items : List Item}
    (h : List.Forall₂ (fun chunk item => Chunk.Says chunk (.data item)) chunks items) :
    ∃ data, chunks.mapM release = .ok data ∧ data.map (fun d => (d.metadata, d.data.bytes)) =
      items.map fun item => (item.metadata, item.payload) := by
  induction h with
  | nil => exact ⟨[], rfl, rfl⟩
  | @cons chunk item chunks items hmsg _ ih =>
      obtain ⟨data, hdata, hmap⟩ := ih
      obtain ⟨-, hmetadata, hpayload, -⟩ := hmsg
      obtain ⟨b, hb, hbytes⟩ := Option.map_eq_some_iff.mp hpayload
      have hrelease : release chunk = .ok ⟨item.metadata, b⟩ := by
        rw [release, hmetadata, hb]
        rfl
      refine ⟨⟨item.metadata, b⟩ :: data, ?_, ?_⟩
      · rw [List.mapM_cons, hrelease, hdata]
        rfl
      · rw [List.map_cons, List.map_cons, hmap, hbytes]

end Rapidsmpf.Coll.SparseAlltoall
