import Mathlib
import Rapidsmpf.Exchange.Tag
import Rapidsmpf.Lib.ListFacts

/-!
# One direction between two ranks

What a receiver holds of one peer, and how it relates to what that peer sent. The peer's side is
a list of events: its application messages and termination markers, over all instances on the
`op_id`. `Peer.Ok` says how far the receiver has got: the events it took from the metadata channel
split into those already handed over, those whose payload is in transit, those still waiting in
`incoming_messages_`, and possibly the termination marker of the current instance. Each thing
`progress` can do to one peer keeps `Peer.Ok`; `Rapidsmpf.Exchange.Progress` puts these steps
together.
-/

namespace Rapidsmpf.Exchange

open Protocol LittleEndian

/-! ## What a peer sends -/

/-- What a rank puts on the metadata channel to one destination: an application message with the
id it was given, or the termination marker with the announced count. -/
inductive Event where
  | app (stamp id : Nat) (message : Message)
  | marker (stamp count : Nat)

namespace Event

/-- The instance an event belongs to. -/
def stamp : Event → Nat
  | app e _ _ => e
  | marker e _ => e

/-- The metadata message of an event. -/
def wire : Event → Nat × Bytes
  | app e id m => (e, combinedMetadata m.metadata id m.payloadSize)
  | marker e count => (e, terminationMarker count)

/-- The message on the data channel of an event, if it has a payload. -/
def payload : Event → Option (Nat × Buffer)
  | app e _ m => if 0 < m.payloadSize then m.data.map (fun b => (e, b)) else none
  | marker _ _ => none

/-- The content of an application message of the instance `k`. -/
def contentOf (k : Nat) : Event → Option (Bytes × Bytes)
  | app e _ m => if e = k then some m.content else none
  | marker _ _ => none

@[simp] theorem wire_fst (x : Event) : x.wire.1 = x.stamp := by
  cases x <;> rfl

end Event

/-- The contents of the application messages of the instance `k`, in order. -/
def contents (k : Nat) (h : List Event) : List (Bytes × Bytes) :=
  h.filterMap (Event.contentOf k)

/-- The marker of the instance `k` is among the events. -/
def Closed (k : Nat) (h : List Event) : Prop :=
  ∃ count, Event.marker k count ∈ h

@[simp] theorem contents_append (k : Nat) (h h' : List Event) :
    contents k (h ++ h') = contents k h ++ contents k h' :=
  List.filterMap_append

@[simp] theorem contents_nil (k : Nat) : contents k [] = [] := rfl

theorem contents_app (k e id : Nat) (m : Message) :
    contents k [Event.app e id m] = if e = k then [m.content] else [] := by
  by_cases h : e = k <;> simp [contents, Event.contentOf, h]

@[simp] theorem contents_marker (k e count : Nat) :
    contents k [Event.marker e count] = [] := rfl

theorem closed_append {k : Nat} {h h' : List Event} :
    Closed k (h ++ h') ↔ Closed k h ∨ Closed k h' := by
  simp [Closed, List.mem_append, exists_or]

theorem closed_app {k e id : Nat} {m : Message} : ¬ Closed k [Event.app e id m] := by
  simp [Closed]

theorem closed_marker {k e count : Nat} : Closed k [Event.marker e count] ↔ k = e := by
  simp [Closed, eq_comm]

theorem contents_eq_nil {k : Nat} {h : List Event} (hne : ∀ x ∈ h, x.stamp ≠ k) :
    contents k h = [] := by
  rw [contents, List.filterMap_eq_nil_iff]
  intro x hx
  cases x with
  | app e id m => simpa [Event.contentOf, Event.stamp] using hne _ hx
  | marker e count => rfl

/-- Events that all have a payload have as many payloads. -/
theorem length_payloads {h : List Event} (hpay : ∀ x ∈ h, x.payload.isSome) :
    (h.filterMap Event.payload).length = h.length := by
  induction h with
  | nil => rfl
  | cons x h ih =>
      obtain ⟨y, hy⟩ := Option.isSome_iff_exists.mp (hpay x (by simp))
      simp [hy, ih (fun z hz => hpay z (by simp [hz]))]

/-- The events of one sender to one destination, as the sender's program order makes them: every
event comes after the markers of all earlier instances and before the marker of its own; a marker
announces the number of application messages of its instance; ids are 64-bit and none is the
sentinel. -/
structure Events (h : List Event) : Prop where
  after : ∀ {pre post : List Event} {x : Event}, h = pre ++ x :: post →
    (∀ k < x.stamp, Closed k pre) ∧ ¬ Closed x.stamp pre
  count : ∀ {k count : Nat}, Event.marker k count ∈ h → count = (contents k h).length
  count_lt : ∀ {k count : Nat}, Event.marker k count ∈ h → count < 2 ^ 64
  id_lt : ∀ {e id : Nat} {m : Message}, Event.app e id m ∈ h → id < 2 ^ 64
  id_ne : ∀ {e id : Nat} {m : Message}, Event.app e id m ∈ h → id ≠ terminationSentinel

/-- The event a receiver takes next belongs to its own instance, provided it took the markers of
all earlier instances and not yet its own. -/
theorem Events.stamp_eq {pre post : List Event} {x : Event} {e : Nat}
    (h : Events (pre ++ x :: post)) (hprev : ∀ k < e, Closed k pre) (hopen : ¬ Closed e pre) :
    x.stamp = e := by
  obtain ⟨hlt, hself⟩ := h.after rfl
  rcases Nat.lt_trichotomy x.stamp e with hx | hx | hx
  · exact absurd (hprev _ hx) hself
  · exact hx
  · exact absurd (hlt _ hx) hopen

/-- After the marker of an instance no message of that instance follows. -/
theorem Events.contents_after {pre post : List Event} {k : Nat}
    (h : Events (pre ++ post)) (hclosed : Closed k pre) : contents k post = [] := by
  apply contents_eq_nil
  intro x hx
  obtain ⟨a, b, rfl⟩ := List.append_of_mem hx
  rw [← List.append_assoc] at h
  rintro rfl
  exact (h.after rfl).2 (closed_append.mpr (Or.inl hclosed))

/-! ## Reading a metadata message -/

/-- The trailer of a combined metadata message is read back exactly. -/
theorem parse_combined {metadata : Bytes} {id size : Nat} (hid : id < 2 ^ 64)
    (hsize : size < 2 ^ 64) :
    parseMetadata (combinedMetadata metadata id size) = .ok ⟨metadata, id, size⟩ := by
  have hlen : (combinedMetadata metadata id size).length = metadata.length + 16 := by
    simp [combinedMetadata]
  unfold parseMetadata
  rw [if_neg (by omega)]
  simp only [hlen, Nat.add_sub_cancel]
  have htake : (combinedMetadata metadata id size).take metadata.length = metadata := by
    simp [combinedMetadata, List.append_assoc]
  have hdrop : (combinedMetadata metadata id size).drop metadata.length
      = toBytes 8 id ++ toBytes 8 size := by
    simp [combinedMetadata, List.append_assoc]
  have hdrop' : (combinedMetadata metadata id size).drop (metadata.length + 8)
      = toBytes 8 size := by
    rw [← List.drop_drop, hdrop, List.drop_left' (length_toBytes 8 id)]
  rw [htake, hdrop, hdrop', List.take_left' (length_toBytes 8 id),
    List.take_of_length_le (by simp), of_bytes_to_bytes_of_lt (by simpa using hid),
    of_bytes_to_bytes_of_lt (by simpa using hsize)]
  rfl

/-- A termination marker is read back as the sentinel with the count. -/
theorem parse_marker {count : Nat} (h : count < 2 ^ 64) :
    parseMetadata (terminationMarker count) = .ok ⟨[], terminationSentinel, count⟩ :=
  show parseMetadata (combinedMetadata [] terminationSentinel count) = _ from
    parse_combined (by simp [terminationSentinel]) h

/-- A payload size is a `std::size_t`. -/
theorem Message.payloadSize_lt (m : Message) : m.payloadSize < 2 ^ 64 := by
  cases hd : m.data with
  | none => simp [Message.payloadSize, hd]
  | some b => simpa [Message.payloadSize, hd, Buffer.size] using b.size_lt

/-! ## What a receiver holds of one peer -/

/-- The parts of an exchange and of its channels that concern one peer. `out` is what was handed
over so far from this peer in the current instance. -/
structure Peer where
  metadata : Channel Nat Bytes
  gpuData : Channel Nat Buffer
  received : Nat
  expected : Nat
  terminated : Bool
  incoming : List TagMessage
  transit : List TagMessage
  futures : List (Nat × Future)
  out : List (Bytes × Bytes)

/-- The receiver's record `m` describes the application message `x` of the peer `q` in the
instance `e`. -/
def Records (q e : Nat) : Event → TagMessage → Prop
  | .app k id msg, m =>
      k = e ∧ m.messageId = id ∧ m.message.metadata = msg.metadata
        ∧ m.expectedPayloadSize = msg.payloadSize ∧ m.message.peerRank = q
        ∧ (m.expectedPayloadSize = 0 → m.message.data = none)
  | .marker _ _, _ => False

/-- The events of the peer, split by how far the receiver has got with them: handed over, payload
in transit, waiting, the marker if it was taken, and not yet taken. -/
structure Split (q e : Nat) (h : List Event) (p : Peer)
    (done transit waiting last rest : List Event) : Prop where
  eq : h = done ++ transit ++ waiting ++ last ++ rest
  metadata_taken : p.metadata.taken = (done ++ transit ++ waiting ++ last).map Event.stamp
  gpuData_taken : p.gpuData.taken = ((done ++ transit).filterMap Event.payload).map Prod.fst
  transit_records : List.Forall₂ (Records q e) transit p.transit
  transit_payload : ∀ x ∈ transit, x.payload.isSome
  waiting_records : List.Forall₂ (Records q e) waiting p.incoming
  last_eq : (p.terminated = false ∧ last = []) ∨
    (p.terminated = true ∧ ∃ count, last = [Event.marker e count])
  out_eq : p.out = contents e done
  done_stamp : ∀ x ∈ done, x.stamp ≤ e
  done_closed : ∀ k < e, Closed k done
  done_open : ¬ Closed e done
  received_eq : p.received = (contents e (done ++ transit ++ waiting)).length
  expected_eq : p.terminated = true → p.expected = p.received
  future_eq : ∀ (j : Nat) (m : TagMessage), p.transit[j]? = some m →
    ∃ f, p.futures.lookup m.messageId = some f ∧ f.src = q
      ∧ f.position = (done.filterMap Event.payload).length + j

/-- The receiver in the instance `e` holds a faithful record of what the peer `q` sent. -/
structure Peer.Ok (q e : Nat) (h : List Event) (p : Peer) : Prop where
  metadata_sent : p.metadata.sent = h.map Event.wire
  gpuData_sent : p.gpuData.sent = h.filterMap Event.payload
  split : ∃ done transit waiting last rest, Split q e h p done transit waiting last rest

/-- Attaching a buffer to a message that has a payload does not change what it records. -/
def Attached (m m' : TagMessage) : Prop :=
  m' = m ∨ (0 < m.expectedPayloadSize ∧ m'.messageId = m.messageId
    ∧ m'.message.metadata = m.message.metadata
    ∧ m'.expectedPayloadSize = m.expectedPayloadSize
    ∧ m'.message.peerRank = m.message.peerRank)

theorem Attached.refl (m : TagMessage) : Attached m m := Or.inl rfl

theorem Records.attached {q e : Nat} {x : Event} {m m' : TagMessage} (h : Records q e x m)
    (ha : Attached m m') : Records q e x m' := by
  cases x with
  | marker => exact h.elim
  | app k id msg =>
      rcases ha with rfl | ⟨hpos, hid, hmeta, hsize, hrank⟩
      · exact h
      · obtain ⟨hk, h1, h2, h3, h4, _⟩ := h
        exact ⟨hk, hid.trans h1, hmeta.trans h2, hsize.trans h3, hrank.trans h4,
          fun hzero => absurd hzero (by omega)⟩

theorem Records.attached_all {q e : Nat} {xs : List Event} {ms ms' : List TagMessage}
    (h : List.Forall₂ (Records q e) xs ms) (ha : List.Forall₂ Attached ms ms') :
    List.Forall₂ (Records q e) xs ms' := by
  induction h generalizing ms' with
  | nil =>
      cases ha
      exact .nil
  | cons hx _ ih =>
      cases ha with
      | cons ha hrest => exact .cons (hx.attached ha) (ih hrest)

theorem Records.not_closed {q e k : Nat} {xs : List Event} {ms : List TagMessage}
    (h : List.Forall₂ (Records q e) xs ms) : ¬ Closed k xs := by
  rintro ⟨count, hmem⟩
  induction h with
  | nil => exact absurd hmem (by simp)
  | cons hx _ ih =>
      rcases List.mem_cons.mp hmem with rfl | hmem
      · exact hx.elim
      · exact ih hmem

namespace Peer

variable {q e : Nat} {h : List Event} {p : Peer}

/-- While the marker has not been taken, the next metadata message is one of the current
instance: an application message, which is recorded at the end of the waiting ones, or the
marker, which announces exactly what was received. -/
theorem Ok.receive (hev : Events h) (hp : p.Ok q e h) (hopen : p.terminated = false)
    {w : Nat × Bytes} (hnext : p.metadata.next? = some w) :
    (∃ id msg, parseMetadata w.2 = .ok ⟨msg.metadata, id, msg.payloadSize⟩
        ∧ id ≠ terminationSentinel
        ∧ ∀ m, Records q e (.app e id msg) m →
          Ok q e h { p with
            metadata := p.metadata.post e
            received := p.received + 1
            incoming := p.incoming ++ [m] })
      ∨ ∃ count, parseMetadata w.2 = .ok ⟨[], terminationSentinel, count⟩
        ∧ Ok q e h { p with
            metadata := p.metadata.post e
            expected := count
            terminated := true } := by
  obtain ⟨done, transit, waiting, last, rest, hs⟩ := hp.split
  obtain rfl : last = [] := by
    rcases hs.last_eq with ⟨_, hl⟩ | ⟨ht, _⟩
    · exact hl
    · simp [hopen] at ht
  have hh := hs.eq
  simp only [List.append_nil] at hh
  -- the next message is the first event not yet taken
  have hmatched : p.metadata.matched = (done ++ transit ++ waiting).length := by
    simp [Channel.matched, hs.metadata_taken]
  obtain ⟨x, rest, rfl, rfl⟩ : ∃ x rest', rest = x :: rest' ∧ w = x.wire := by
    rw [Channel.next?, hp.metadata_sent, hmatched, hh, List.getElem?_map,
      List.getElem?_append_right (Nat.le_refl _), Nat.sub_self] at hnext
    cases rest with
    | nil => simp at hnext
    | cons x rest => exact ⟨x, rest, rfl, by simpa using hnext.symm⟩
  have hclosed : ∀ k < e, Closed k (done ++ transit ++ waiting) := fun k hk =>
    closed_append.mpr (Or.inl (closed_append.mpr (Or.inl (hs.done_closed k hk))))
  have hnot : ¬ Closed e (done ++ transit ++ waiting) := by
    simp only [closed_append, not_or]
    exact ⟨⟨hs.done_open, Records.not_closed hs.transit_records⟩,
      Records.not_closed hs.waiting_records⟩
  have hstamp : x.stamp = e := Events.stamp_eq (hh ▸ hev) hclosed hnot
  have hmem : x ∈ h := by rw [hh]; simp
  cases x with
  | app k id msg =>
      obtain rfl : k = e := hstamp
      refine Or.inl ⟨id, msg, parse_combined (hev.id_lt hmem) msg.payloadSize_lt,
        hev.id_ne hmem, fun m hm => ⟨hp.metadata_sent, hp.gpuData_sent,
          done, transit, waiting ++ [.app k id msg], [], rest, ?_⟩⟩
      refine { hs with
        eq := by simp [hh]
        metadata_taken := by simp [hs.metadata_taken, Event.stamp]
        waiting_records := List.rel_append hs.waiting_records (.cons hm .nil)
        received_eq := ?_
        expected_eq := fun ht => absurd ht (by simp [hopen]) }
      simp only [hs.received_eq, contents_append, contents_app, List.length_append, if_true,
        List.length_singleton, Nat.add_assoc]
  | marker k count =>
      obtain rfl : k = e := hstamp
      refine Or.inr ⟨count, parse_marker (hev.count_lt hmem), hp.metadata_sent, hp.gpuData_sent,
        done, transit, waiting, [.marker k count], rest, ?_⟩
      refine { hs with
        eq := by simp [hh]
        metadata_taken := by simp [hs.metadata_taken, Event.stamp]
        last_eq := Or.inr ⟨rfl, count, rfl⟩
        expected_eq := fun _ => ?_ }
      -- nothing of this instance follows the marker, so the announced count was received
      have hev' : Events (done ++ transit ++ waiting ++ [.marker k count] ++ rest) := by
        simpa [hh] using hev
      have hafter : contents k rest = [] :=
        hev'.contents_after (closed_append.mpr (Or.inr (closed_marker.mpr rfl)))
      have hcount := hev.count hmem
      rw [hh, show Event.marker k count :: rest = [.marker k count] ++ rest from rfl,
        contents_append, contents_append k [_], hafter, contents_marker] at hcount
      simpa [hs.received_eq] using hcount

/-- Attaching receive buffers to waiting messages. -/
theorem Ok.attach (hp : p.Ok q e h) {incoming' : List TagMessage}
    (hatt : List.Forall₂ Attached p.incoming incoming') :
    Ok q e h { p with incoming := incoming' } := by
  obtain ⟨done, transit, waiting, last, rest, hs⟩ := hp.split
  refine ⟨hp.metadata_sent, hp.gpuData_sent, done, transit, waiting, last, rest, ?_⟩
  exact { hs with waiting_records := Records.attached_all hs.waiting_records hatt }

/-- Handing over a metadata-only message when nothing of the peer is in transit. -/
theorem Ok.pass (hp : p.Ok q e h) {m : TagMessage} {rest : List TagMessage}
    (hin : p.incoming = m :: rest) (hsize : m.expectedPayloadSize = 0)
    (hempty : p.transit = []) :
    Ok q e h { p with incoming := rest, out := p.out ++ [m.message.content] } := by
  obtain ⟨done, transit, waiting, last, tail, hs⟩ := hp.split
  obtain rfl : transit = [] := by
    have := hs.transit_records
    rw [hempty] at this
    cases this
    rfl
  obtain ⟨x, waiting, hx, hrest, rfl⟩ :=
    List.forall₂_cons_right_iff.mp (hin ▸ hs.waiting_records)
  cases x with
  | marker => exact hx.elim
  | app k id msg =>
      obtain ⟨rfl, hid, hmeta, hpay, hrank, hnone⟩ := hx
      have hmsg : msg.payloadSize = 0 := by omega
      have hpayload : (Event.app k id msg).payload = none := by
        simp [Event.payload, hmsg]
      have hcontent : m.message.content = msg.content := by
        have hd : msg.content.2 = [] := by
          cases hdata : msg.data with
          | none => simp [Message.content, hdata]
          | some b =>
              have : b.bytes.length = 0 := by
                simpa [Message.payloadSize, hdata, Buffer.size] using hmsg
              simpa [Message.content, hdata] using List.length_eq_zero_iff.mp this
        refine Prod.ext hmeta ?_
        rw [hd]
        simp [Message.content, hnone hsize]
      refine ⟨hp.metadata_sent, hp.gpuData_sent,
        done ++ [.app k id msg], [], waiting, last, tail, ?_⟩
      refine { hs with
        eq := by simp [hs.eq]
        metadata_taken := by simp [hs.metadata_taken]
        gpuData_taken := by simp [hs.gpuData_taken, hpayload]
        transit_records := by simp [hempty]
        waiting_records := hrest
        out_eq := by simp [hs.out_eq, contents_app, hcontent]
        done_stamp := ?_
        done_closed := fun j hj => closed_append.mpr (Or.inl (hs.done_closed j hj))
        done_open := by simp [closed_append, hs.done_open, closed_app]
        received_eq := by simp [hs.received_eq]
        future_eq := fun j m' hj => by simp [hempty] at hj }
      intro x hx
      rcases List.mem_append.mp hx with hx | hx
      · exact hs.done_stamp x hx
      · simp only [List.mem_singleton] at hx
        simp [hx, Event.stamp]

/-- Posting the payload receive of the first waiting message under a fresh id. -/
theorem Ok.post (hp : p.Ok q e h) {m m' : TagMessage} {rest : List TagMessage} {b : Buffer}
    (hin : p.incoming = m :: rest) (hsize : 0 < m.expectedPayloadSize) (hm : Attached m m')
    (hfresh : p.futures.lookup m.messageId = none) :
    Ok q e h { p with
      incoming := rest
      transit := p.transit ++ [m']
      futures := p.futures ++ [(m.messageId, ⟨q, p.gpuData.matched, b⟩)]
      gpuData := p.gpuData.post e } := by
  obtain ⟨done, transit, waiting, last, tail, hs⟩ := hp.split
  obtain ⟨x, waiting, hx, hrest, rfl⟩ :=
    List.forall₂_cons_right_iff.mp (hin ▸ hs.waiting_records)
  have hx' := hx.attached hm
  cases x with
  | marker => exact hx.elim
  | app k id msg =>
      obtain ⟨rfl, hid, hmeta, hpay, hrank, hnone⟩ := hx
      obtain ⟨data, hdata⟩ : ∃ data, msg.data = some data := by
        cases hd : msg.data with
        | none => simp [Message.payloadSize, hd] at hpay; omega
        | some data => exact ⟨data, rfl⟩
      have hpayload : (Event.app k id msg).payload = some (k, data) := by
        rw [Event.payload, if_pos (by omega), hdata]
        rfl
      have hmatched : p.gpuData.matched
          = (done.filterMap Event.payload).length + p.transit.length := by
        simp [Channel.matched, hs.gpuData_taken, length_payloads hs.transit_payload,
          List.Forall₂.length_eq hs.transit_records]
      refine ⟨hp.metadata_sent, hp.gpuData_sent,
        done, transit ++ [.app k id msg], waiting, last, tail, ?_⟩
      refine { hs with
        eq := by simp [hs.eq]
        metadata_taken := by simp [hs.metadata_taken]
        gpuData_taken := by simp [hs.gpuData_taken, hpayload]
        transit_records := List.rel_append hs.transit_records (.cons hx' .nil)
        transit_payload := ?_
        waiting_records := hrest
        received_eq := by simp [hs.received_eq]
        future_eq := ?_ }
      · intro y hy
        rcases List.mem_append.mp hy with hy | hy
        · exact hs.transit_payload y hy
        · simp only [List.mem_singleton] at hy
          simp [hy, hpayload]
      · intro j m'' hj
        have hid' : m'.messageId = m.messageId := by
          rcases hm with rfl | ⟨_, hid', _⟩
          · rfl
          · exact hid'
        rcases Nat.lt_or_ge j p.transit.length with hlt | hge
        · rw [List.getElem?_append_left hlt] at hj
          obtain ⟨f, hf, hsrc, hpos⟩ := hs.future_eq j m'' hj
          exact ⟨f, by rw [List.lookup_append, hf]; rfl, hsrc, hpos⟩
        · rw [List.getElem?_append_right hge] at hj
          obtain ⟨rfl, hj0⟩ : m'' = m' ∧ j = p.transit.length := by
            cases hsub : j - p.transit.length with
            | zero => simp [hsub] at hj; exact ⟨hj.symm, by omega⟩
            | succ n => simp [hsub] at hj
          refine ⟨⟨q, p.gpuData.matched, b⟩, ?_, rfl, by simp [hmatched, hj0]⟩
          rw [List.lookup_append, hid', hfresh]
          simp [List.lookup]

/-- The future of the first in-transit message yields the payload its peer sent with it, and the
message is handed over with it. -/
theorem Ok.complete (hp : p.Ok q e h) {m : TagMessage} {rest : List TagMessage} {f : Future}
    (htr : p.transit = m :: rest) (hf : p.futures.lookup m.messageId = some f) :
    f.src = q ∧ ∃ payload, p.gpuData.content? f.position = some payload
      ∧ Ok q e h { p with
          transit := rest
          futures := p.futures.filter (fun g => g.1 ≠ m.messageId)
          out := p.out ++ [(m.message.metadata, payload.bytes)] } := by
  obtain ⟨done, transit, waiting, last, tail, hs⟩ := hp.split
  obtain ⟨x, transit, hx, hrest, rfl⟩ :=
    List.forall₂_cons_right_iff.mp (htr ▸ hs.transit_records)
  obtain ⟨f', hf', hsrc, hpos⟩ := hs.future_eq 0 m (by simp [htr])
  obtain rfl : f' = f := Option.some.inj (hf'.symm.trans hf)
  cases x with
  | marker => exact hx.elim
  | app k id msg =>
      obtain ⟨rfl, hid, hmeta, hpay, hrank, hnone⟩ := hx
      obtain ⟨⟨_, data⟩, hpayload⟩ :=
        Option.isSome_iff_exists.mp (hs.transit_payload (.app k id msg) (by simp))
      obtain ⟨hdata, rfl⟩ : msg.data = some data ∧ k = _ := by
        simp only [Event.payload] at hpayload
        split at hpayload
        · obtain ⟨b, hb, heq⟩ := Option.map_eq_some_iff.mp hpayload
          simp only [Prod.mk.injEq] at heq
          exact ⟨heq.2 ▸ hb, heq.1⟩
        · cases hpayload
      refine ⟨hsrc, data, ?_, hp.metadata_sent, hp.gpuData_sent,
        done ++ [.app k id msg], transit, waiting, last, tail, ?_⟩
      · simp [Channel.content?, hp.gpuData_sent, hs.eq, hpos, hpayload]
      refine { hs with
        eq := by simp [hs.eq]
        metadata_taken := by simp [hs.metadata_taken]
        gpuData_taken := by simp [hs.gpuData_taken]
        transit_records := hrest
        transit_payload := fun y hy => hs.transit_payload y (by simp [hy])
        out_eq := ?_
        done_stamp := ?_
        done_closed := fun j hj => closed_append.mpr (Or.inl (hs.done_closed j hj))
        done_open := by simp [closed_append, hs.done_open, closed_app]
        received_eq := by simp [hs.received_eq]
        future_eq := ?_ }
      · simp [hs.out_eq, contents_app, Message.content, hdata, hmeta]
      · intro y hy
        rcases List.mem_append.mp hy with hy | hy
        · exact hs.done_stamp y hy
        · simp only [List.mem_singleton] at hy
          simp [hy, Event.stamp]
      · intro j m' hj
        obtain ⟨g, hg, hgsrc, hgpos⟩ := hs.future_eq (j + 1) m' (by simpa [htr] using hj)
        -- another in-transit message has another position, hence another id
        have hne : m'.messageId ≠ m.messageId := by
          intro heq
          rw [heq, hf] at hg
          cases hg
          omega
        refine ⟨g, ?_, hgsrc, ?_⟩
        · rw [ListFacts.lookup_filter_ne hne, hg]
        · simp [hgpos, hpayload]
          omega

/-- Steps for other peers only change the futures of other messages. -/
theorem Ok.futures (hp : p.Ok q e h) {futures' : List (Nat × Future)}
    (hlookup : ∀ m ∈ p.transit, ∀ f, p.futures.lookup m.messageId = some f → f.src = q →
      futures'.lookup m.messageId = some f) :
    Ok q e h { p with futures := futures' } := by
  obtain ⟨done, transit, waiting, last, tail, hs⟩ := hp.split
  refine ⟨hp.metadata_sent, hp.gpuData_sent, done, transit, waiting, last, tail, ?_⟩
  refine { hs with future_eq := fun j m hj => ?_ }
  obtain ⟨f, hf, hsrc, hpos⟩ := hs.future_eq j m hj
  exact ⟨f, hlookup m (List.mem_of_getElem? hj) f hf hsrc, hsrc, hpos⟩

end Peer

end Rapidsmpf.Exchange
