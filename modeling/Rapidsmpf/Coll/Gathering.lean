import Rapidsmpf.Lib.ListFacts
import Rapidsmpf.Coll.AllGather

/-!
# What a call of `event_loop` of an AllGather does

`Desk` is what a rank holds of an AllGather, as lists of messages and items: what the application
put in, what came from the predecessor, what went to the successor, and what is in between.
`Balanced` says that nothing is lost or duplicated between them, `Counted` that the counters agree
with them. `Station` relates a desk to the members of a rank and its channels;
`event_loop_keeps` is the result: whatever the environment does, a call of `event_loop` that
returns keeps the rank a station.
-/

namespace Rapidsmpf.AllGather

open Protocol Coll Circular Fallible ListFacts

/-! ## The desk of a rank -/

/-- What a rank holds of an AllGather. -/
structure Desk where
  produced : List Msg
  arrived : List Msg
  forwarded : List Msg
  box : List Msg
  waiting : List Item
  posted : List Item
  sending : List Item
  extraction : List Item

namespace Desk

variable {dst : Nat} {d : Desk} {m : Msg} {item : Item}

/-- The items whose payload is still to come. -/
def expected (d : Desk) : List Item := d.waiting ++ d.posted

/-- Nothing is lost or duplicated: what was put in or came and is not at the end of its way is in
the box, expected, or went on; what went on or came at the end of its way is expected, being sent,
or can be extracted. -/
structure Balanced (dst : Nat) (d : Desk) : Prop where
  flow : ∀ m, d.produced.count m + (if m.origin = dst then 0 else d.arrived.count m)
    = d.box.count m + (if m.origin = dst then 0 else (d.expected.map Msg.data).count m)
      + d.forwarded.count m
  extraction : ∀ item, d.extraction.count item + d.sending.count item
      + (if (Msg.data item).origin = dst then d.expected.count item else 0)
    = d.forwarded.count (.data item)
      + (if (Msg.data item).origin = dst then d.arrived.count (.data item) else 0)

@[simp] theorem count_map_finish (l : List Item) (id : Nat) :
    (l.map Msg.data).count (.finish id) = 0 :=
  List.count_eq_zero.mpr fun h => by
    obtain ⟨item, -, heq⟩ := List.mem_map.mp h
    cases heq

@[simp] theorem count_map_data (l : List Item) (item : Item) :
    (l.map Msg.data).count (.data item) = l.count item :=
  List.count_map_of_injective l _ (fun _ _ h => Msg.data.inj h) item

/-- A contribution goes from the box to the successor. -/
def sendData (item : Item) (box : List Msg) (d : Desk) : Desk :=
  { d with
    box := box
    forwarded := d.forwarded ++ [.data item]
    sending := d.sending ++ [item] }

theorem Balanced.sendData {box : List Msg} (h : d.Balanced dst) (hbox : d.box = .data item :: box) :
    (d.sendData item box).Balanced dst := by
  constructor
  · intro m
    have hflow := h.flow m
    simp only [hbox, List.count_cons] at hflow
    simp only [Desk.sendData, expected, List.count_append, List.count_singleton] at hflow ⊢
    omega
  · intro it
    have hextraction := h.extraction it
    simp only [Desk.sendData, expected, List.count_append, List.count_singleton, beq_iff_eq,
      Msg.data.injEq] at hextraction ⊢
    omega

/-- A finish message goes from the box to the successor. -/
def sendFinish (id : Nat) (box : List Msg) (d : Desk) : Desk :=
  { d with box := box, forwarded := d.forwarded ++ [.finish id] }

theorem Balanced.sendFinish {id : Nat} {box : List Msg} (h : d.Balanced dst)
    (hbox : d.box = .finish id :: box) : (d.sendFinish id box).Balanced dst := by
  constructor
  · intro m
    have hflow := h.flow m
    simp only [hbox, List.count_cons] at hflow
    simp only [Desk.sendFinish, expected, List.count_append, List.count_singleton] at hflow ⊢
    omega
  · intro it
    have hextraction := h.extraction it
    simpa [Desk.sendFinish, expected, List.count_append] using hextraction

/-- A contribution comes from the predecessor, without its payload. -/
def receiveData (item : Item) (d : Desk) : Desk :=
  { d with arrived := d.arrived ++ [.data item], waiting := d.waiting ++ [item] }

theorem Balanced.receiveData (h : d.Balanced dst) (item : Item) :
    (d.receiveData item).Balanced dst := by
  constructor
  · intro m
    have hflow := h.flow m
    simp only [Desk.receiveData, expected, List.map_append, List.count_append, List.map_cons,
      List.map_nil] at hflow ⊢
    split at hflow
    · next heq =>
        rw [if_pos heq, if_pos heq]
        exact hflow
    · next hne =>
        rw [if_neg hne, if_neg hne]
        omega
  · intro it
    have hextraction := h.extraction it
    simp only [Desk.receiveData, expected, List.count_append, List.count_singleton, beq_iff_eq,
      Msg.data.injEq] at hextraction ⊢
    split at hextraction
    · next heq =>
        rw [if_pos heq, if_pos heq]
        omega
    · next hne =>
        rw [if_neg hne, if_neg hne]
        exact hextraction

/-- A finish message comes from the predecessor, and goes on unless it is at the end of its way. -/
def receiveFinish (dst id : Nat) (d : Desk) : Desk :=
  { d with
    arrived := d.arrived ++ [.finish id]
    forwarded :=
      if (Msg.finish id).origin = dst then d.forwarded else d.forwarded ++ [.finish id] }

theorem Balanced.receiveFinish (h : d.Balanced dst) (id : Nat) :
    (d.receiveFinish dst id).Balanced dst := by
  constructor
  · intro m
    have hflow := h.flow m
    simp only [Desk.receiveFinish, expected, List.count_append] at hflow ⊢
    by_cases hdst : (Msg.finish id).origin = dst
    · rw [if_pos hdst]
      by_cases hm : m.origin = dst
      · rw [if_pos hm] at hflow ⊢
        exact hflow
      · have hne : (Msg.finish id == m) = false := by
          refine beq_eq_false_iff_ne.mpr fun heq => hm ?_
          rw [← heq, hdst]
        rw [if_neg hm] at hflow ⊢
        rw [List.count_singleton, hne]
        exact hflow
    · rw [if_neg hdst, List.count_append]
      by_cases hm : m.origin = dst
      · have hne : (Msg.finish id == m) = false := by
          refine beq_eq_false_iff_ne.mpr fun heq => hdst ?_
          rw [heq, hm]
        rw [if_pos hm] at hflow ⊢
        rw [List.count_singleton, hne]
        exact hflow
      · rw [if_neg hm] at hflow ⊢
        omega
  · intro it
    have hextraction := h.extraction it
    have hforwarded : (d.receiveFinish dst id).forwarded.count (.data it)
        = d.forwarded.count (.data it) := by
      simp only [Desk.receiveFinish]
      split <;> simp
    rw [hforwarded]
    simpa [Desk.receiveFinish, expected] using hextraction

/-- The receive of a payload is posted. -/
def post (item : Item) (waiting : List Item) (d : Desk) : Desk :=
  { d with waiting := waiting, posted := d.posted ++ [item] }

theorem Balanced.post {waiting : List Item} (h : d.Balanced dst)
    (hwaiting : d.waiting = item :: waiting) : (d.post item waiting).Balanced dst := by
  have hperm : (d.post item waiting).expected.Perm d.expected := by
    simp only [Desk.post, expected, hwaiting, ← List.append_assoc]
    exact (List.perm_append_singleton item _).trans (by simp)
  constructor
  · intro m
    rw [(hperm.map Msg.data).count_eq m]
    exact h.flow m
  · intro it
    rw [hperm.count_eq it]
    exact h.extraction it

/-- A payload came: the item goes into the box, or can be extracted at the end of its way. -/
def receive (dst k : Nat) (item : Item) (d : Desk) : Desk :=
  if (Msg.data item).origin = dst then
    { d with posted := d.posted.eraseIdx k, extraction := d.extraction ++ [item] }
  else { d with posted := d.posted.eraseIdx k, box := d.box ++ [.data item] }

theorem Balanced.receive {k : Nat} (h : d.Balanced dst) (hk : d.posted[k]? = some item) :
    (d.receive dst k item).Balanced dst := by
  have hcount := count_eraseIdx hk
  unfold Desk.receive
  split
  · next hdst =>
    constructor
    · intro m
      have hflow := h.flow m
      cases m with
      | finish id => simpa using hflow
      | data it =>
          simp only [count_map_data, expected, List.count_append, hcount it] at hflow ⊢
          split at hflow
          · next heq =>
              rw [if_pos heq, if_pos heq]
              exact hflow
          · next hne =>
              have hit : ¬ item = it := fun heq => hne (heq ▸ hdst)
              rw [if_neg hne, if_neg hne]
              rw [if_neg hit] at hflow
              omega
    · intro it
      have hextraction := h.extraction it
      simp only [expected, List.count_append, hcount it, List.count_singleton, beq_iff_eq]
        at hextraction ⊢
      by_cases hit : item = it
      · subst hit
        rw [if_pos hdst, if_pos hdst, if_pos rfl] at hextraction
        rw [if_pos hdst, if_pos hdst, if_pos rfl]
        omega
      · rw [if_neg hit] at hextraction ⊢
        omega
  · next hdst =>
    constructor
    · intro m
      have hflow := h.flow m
      cases m with
      | finish id => simpa using hflow
      | data it =>
          simp only [count_map_data, expected, List.count_append, hcount it, List.count_singleton,
            beq_iff_eq, Msg.data.injEq] at hflow ⊢
          by_cases hit : item = it
          · subst hit
            rw [if_neg hdst, if_neg hdst, if_pos rfl] at hflow
            rw [if_neg hdst, if_neg hdst, if_pos rfl]
            omega
          · rw [if_neg hit] at hflow ⊢
            omega
    · intro it
      have hextraction := h.extraction it
      simp only [expected, List.count_append, hcount it] at hextraction ⊢
      split at hextraction
      · next heq =>
          have hit : ¬ item = it := fun heq' => hdst (heq' ▸ heq)
          rw [if_pos heq, if_pos heq]
          rw [if_neg hit] at hextraction
          omega
      · next hne =>
          rw [if_neg hne, if_neg hne]
          exact hextraction

/-- A payload was sent: the item can be extracted. -/
def sent (k : Nat) (item : Item) (d : Desk) : Desk :=
  { d with sending := d.sending.eraseIdx k, extraction := d.extraction ++ [item] }

theorem Balanced.sent {k : Nat} (h : d.Balanced dst) (hk : d.sending[k]? = some item) :
    (d.sent k item).Balanced dst := by
  refine ⟨h.flow, fun it => ?_⟩
  have hextraction := h.extraction it
  simp only [Desk.sent, expected, List.count_append, List.count_singleton, beq_iff_eq,
    count_eraseIdx hk it] at hextraction ⊢
  omega

end Desk

/-- The counters agree with the desk. -/
structure Counted (n : Nat) (d : Desk) (a : Members) : Prop where
  remote : a.remoteFinishCounter + d.arrived.countP Msg.isFinish = n - 1
  received : a.numReceivedMessages + d.arrived.countP Msg.isFinish = d.arrived.length
  expected : a.numExpectedMessages = (d.arrived.map Msg.announced).sum
  finish : a.finishCounter + d.arrived.countP Msg.isFinish + d.produced.countP Msg.isFinish
    = n + d.box.countP Msg.isFinish
  goalpost : a.extractionGoalpost + (d.box.map Msg.announced).sum
    = (d.arrived.map Msg.announced).sum + (d.produced.map Msg.announced).sum

/-- All finish messages of the others and all contributions they announce are among the
messages. -/
def Closed (n : Nat) (msgs : List Msg) : Prop :=
  n ≤ msgs.countP Msg.isFinish + 1
    ∧ (msgs.map Msg.announced).sum + msgs.countP Msg.isFinish ≤ msgs.length

/-- The metadata loop goes on until the collective is closed. -/
theorem Counted.needs_more_eq {n : Nat} {d : Desk} {a : Members} (h : Counted n d a) :
    needsMore a = false ↔ Closed n d.arrived := by
  have hremote := h.remote
  have hreceived := h.received
  rw [needsMore, Bool.or_eq_false_iff, decide_eq_false_iff_not, decide_eq_false_iff_not, h.expected,
    Closed]
  constructor
  · rintro ⟨h1, h2⟩
    exact ⟨by omega, by omega⟩
  · rintro ⟨h1, h2⟩
    exact ⟨by omega, by omega⟩

/-! ## The rank behind the desk -/

/-- What the application put into an AllGather. -/
def producedBy (r : Nat) (ins : List Insertion) (finished : Bool) : List Msg :=
  ins.map (fun x => .data ⟨chunkId x.sequence r, x.metadata, x.payload⟩)
    ++ if finished then [.finish (chunkId (ins.length % 2 ^ 32) r)] else []

/-- The messages of one AllGather. -/
def ofNumber (e : Nat) (h : List (Nat × Msg)) : List Msg :=
  (h.filter fun x => x.1 = e).map Prod.snd

/-- The contributions among the messages. -/
def itemsOf (h : List (Nat × Msg)) : List (Nat × Item) :=
  h.filterMap fun x => x.2.item?.map (x.1, ·)

@[simp] theorem of_number_append (e : Nat) (h h' : List (Nat × Msg)) :
    ofNumber e (h ++ h') = ofNumber e h ++ ofNumber e h' := by
  simp [ofNumber]

@[simp] theorem of_number_single (e : Nat) (m : Msg) : ofNumber e [(e, m)] = [m] := by
  simp [ofNumber]

@[simp] theorem items_of_append (h h' : List (Nat × Msg)) :
    itemsOf (h ++ h') = itemsOf h ++ itemsOf h' := by
  simp [itemsOf]

/-- The messages `h` were sent on a link, and the payloads of the contributions among them. -/
structure Feed (c : Comm) (link : Rank × Rank) (h : List (Nat × Msg)) : Prop where
  metadata : (c.metadata link).sent = h.map fun x => (x.1, x.2.serialize)
  payload : (c.payload link).sent.map (fun x => (x.1, x.2.bytes))
    = (itemsOf h).map fun x => (x.1, x.2.payload)
  valid : ∀ x ∈ h, x.2.Valid

/-- The lists of a rank are those of its desk; `hand` are chunks taken from `inserted_`. -/
structure Holds (n r : Nat) (ins : List Insertion) (fin : Bool) (d : Desk) (hand : List Chunk)
    (a : Members) : Prop where
  balanced : d.Balanced (succ n r)
  counted : Counted n d a
  finished : a.locallyFinished = fin
  produced : d.produced = producedBy r ins fin
  nlocal : a.nlocalInsertions = ins.length % 2 ^ 32
  box : List.Forall₂ Chunk.Says (hand ++ a.inserted) d.box
  valid : ∀ m ∈ d.box, m.Valid
  waiting : List.Forall₂ (fun c item => c.Heads item ∧ ∃ b, c.data = some b) a.toReceive d.waiting
  posted : List.Forall₂ (fun x item => x.1.Heads item ∧ x.1.data = none) a.receivePosted d.posted
  sending : List.Forall₂ (fun x item => x.1.Heads item ∧ x.1.data = none
    ∧ x.2.bytes = item.payload) a.sentPosted d.sending
  extraction : List.Forall₂ (fun c item => c.Says (.data item)) a.forExtraction d.extraction

/-- The channels of a rank agree with its desk: of the messages of the predecessor, `got` were
received and `rest` were not, and `out` were sent to the successor. -/
structure Links (n r e : Nat) (got rest out : List (Nat × Msg)) (d : Desk) (s : State) : Prop where
  arrived : d.arrived = ofNumber e got
  forwarded : d.forwarded = ofNumber e out
  outgoing : Feed s.2 (r, succ n r) out
  incoming : Feed s.2 (pred n r, r) (got ++ rest)
  metadata_taken : (s.2.metadata (pred n r, r)).taken = got.map Prod.fst
  payload_taken : ∃ front, itemsOf got = front ++ d.waiting.map (e, ·)
    ∧ (s.2.payload (pred n r, r)).taken = front.map Prod.fst
  got_le : ∀ x ∈ got, x.1 ≤ e
  rest_le : ∀ x ∈ rest, e ≤ x.1
  positions : List.Forall₂ (fun x item => x.2.src = pred n r
    ∧ (itemsOf (got ++ rest))[x.2.position]? = some (e, item)) s.1.receivePosted d.posted

/-- A rank at work on its AllGather. -/
structure Station (n r e : Nat) (ins : List Insertion) (fin : Bool)
    (got rest out : List (Nat × Msg)) (d : Desk) (hand : List Chunk) (s : State) : Prop where
  holds : Holds n r ins fin d hand s.1
  links : Links n r e got rest out d s

/-- What the steps of a rank leave alone: what was sent on the links of other ranks, and what was
received on them. -/
structure Frame (n r : Nat) (c c' : Comm) : Prop where
  metadata_sent : ∀ k, k ≠ (r, succ n r) → (c'.metadata k).sent = (c.metadata k).sent
  payload_sent : ∀ k, k ≠ (r, succ n r) → (c'.payload k).sent = (c.payload k).sent
  metadata_taken : ∀ k, k ≠ (pred n r, r) → (c'.metadata k).taken = (c.metadata k).taken
  payload_taken : ∀ k, k ≠ (pred n r, r) → (c'.payload k).taken = (c.payload k).taken

variable {n r e : Nat} {ins : List Insertion} {fin : Bool}
  {got rest out feed h : List (Nat × Msg)} {d : Desk} {hand : List Chunk} {a a' : Members}
  {c c' c'' : Comm} {s s' : State} {link : Rank × Rank}
  {item : Item} {id : Nat} {b : Buffer}

theorem Frame.refl (n r : Nat) (c : Comm) : Frame n r c c :=
  ⟨fun _ _ => rfl, fun _ _ => rfl, fun _ _ => rfl, fun _ _ => rfl⟩

theorem Frame.trans (h : Frame n r c c') (h' : Frame n r c' c'') : Frame n r c c'' where
  metadata_sent := fun k hk => (h'.metadata_sent k hk).trans (h.metadata_sent k hk)
  payload_sent := fun k hk => (h'.payload_sent k hk).trans (h.payload_sent k hk)
  metadata_taken := fun k hk => (h'.metadata_taken k hk).trans (h.metadata_taken k hk)
  payload_taken := fun k hk => (h'.payload_taken k hk).trans (h.payload_taken k hk)

theorem taken_send_metadata (src dst : Nat) (msg : Bytes) (k : Rank × Rank) :
    ((c.sendMetadata src dst e msg).metadata k).taken = (c.metadata k).taken := by
  by_cases hk : k = (src, dst)
  · subst hk
    simp [Comm.sendMetadata]
  · simp [Comm.sendMetadata, Function.update_of_ne hk]

theorem taken_send_payload (src dst : Nat) (b : Buffer) (k : Rank × Rank) :
    ((c.sendPayload src dst e b).payload k).taken = (c.payload k).taken := by
  by_cases hk : k = (src, dst)
  · subst hk
    simp [Comm.sendPayload]
  · simp [Comm.sendPayload, Function.update_of_ne hk]

theorem Frame.send_metadata (msg : Bytes) : Frame n r c (c.sendMetadata r (succ n r) e msg) :=
  ⟨fun k hk => by simp [Comm.sendMetadata, Function.update_of_ne hk], fun _ _ => rfl,
    fun k _ => taken_send_metadata _ _ _ k, fun _ _ => rfl⟩

theorem Frame.send_payload (b : Buffer) : Frame n r c (c.sendPayload r (succ n r) e b) :=
  ⟨fun _ _ => rfl, fun k hk => by simp [Comm.sendPayload, Function.update_of_ne hk],
    fun _ _ => rfl, fun k _ => taken_send_payload _ _ _ k⟩

/-- A metadata message is received. -/
theorem Frame.recv_from {msg : Bytes} (hrecv : c.recvFrom (pred n r) r e = some (msg, c')) :
    Frame n r c c' ∧ (∀ k, (c'.metadata k).sent = (c.metadata k).sent)
      ∧ c'.payload = c.payload
      ∧ (c'.metadata (pred n r, r)).taken = (c.metadata (pred n r, r)).taken ++ [e] := by
  obtain ⟨x, -, hx⟩ := Option.map_eq_some_iff.mp hrecv
  obtain ⟨-, rfl⟩ := Prod.mk.inj hx
  have hsent : ∀ k : Rank × Rank, (Function.update c.metadata (pred n r, r)
      ((c.metadata (pred n r, r)).post e) k).sent = (c.metadata k).sent := by
    intro k
    by_cases hk : k = (pred n r, r)
    · subst hk
      simp
    · rw [Function.update_of_ne hk]
  refine ⟨⟨fun k _ => hsent k, fun _ _ => rfl, fun k hk => ?_, fun _ _ => rfl⟩, hsent, rfl, ?_⟩
  · simp [Function.update_of_ne hk]
  · simp

/-- The receive of a payload is posted. -/
theorem Frame.recv (b : Buffer) :
    Frame n r c (c.recv (pred n r) r e b).2
      ∧ (∀ k, ((c.recv (pred n r) r e b).2.payload k).sent = (c.payload k).sent)
      ∧ (c.recv (pred n r) r e b).2.metadata = c.metadata
      ∧ ((c.recv (pred n r) r e b).2.payload (pred n r, r)).taken
        = (c.payload (pred n r, r)).taken ++ [e] := by
  have hsent : ∀ k, ((c.recv (pred n r) r e b).2.payload k).sent = (c.payload k).sent := by
    intro k
    by_cases hk : k = (pred n r, r)
    · subst hk
      simp [Comm.recv]
    · simp [Comm.recv, Function.update_of_ne hk]
  refine ⟨⟨fun _ _ => rfl, fun k _ => hsent k, fun _ _ => rfl, fun k hk => ?_⟩, hsent, rfl, ?_⟩
  · simp [Comm.recv, Function.update_of_ne hk]
  · simp [Comm.recv]

/-- The feed of a link only depends on what was sent on it. -/
theorem Feed.congr (hfeed : Feed c link h) (hm : (c'.metadata link).sent = (c.metadata link).sent)
    (hp : (c'.payload link).sent = (c.payload link).sent) : Feed c' link h :=
  ⟨by rw [hm, hfeed.metadata], by rw [hp, hfeed.payload], hfeed.valid⟩

theorem Feed.frame (hfeed : Feed c link h) (hframe : Frame n r c c') (hne : link ≠ (r, succ n r)) :
    Feed c' link h :=
  hfeed.congr (hframe.metadata_sent link hne) (hframe.payload_sent link hne)

/-- A finish message is sent. -/
theorem Feed.send_finish {src dst : Nat} (hfeed : Feed c (src, dst) h)
    (hid : (Msg.finish id).Valid) :
    Feed (c.sendMetadata src dst e (Msg.finish id).serialize) (src, dst)
      (h ++ [(e, .finish id)]) := by
  refine ⟨?_, ?_, fun x hx => ?_⟩
  · simp [Comm.sendMetadata, hfeed.metadata]
  · simpa [Comm.sendMetadata, itemsOf, Msg.item?] using hfeed.payload
  · rcases List.mem_append.mp hx with hx | hx
    · exact hfeed.valid x hx
    · obtain rfl := List.mem_singleton.mp hx
      exact hid

/-- A contribution is sent. -/
theorem Feed.send_data {src dst : Nat} (hfeed : Feed c (src, dst) h)
    (hitem : (Msg.data item).Valid) (hb : b.bytes = item.payload) :
    Feed ((c.sendMetadata src dst e (Msg.data item).serialize).sendPayload src dst e b) (src, dst)
      (h ++ [(e, .data item)]) := by
  refine ⟨?_, ?_, fun x hx => ?_⟩
  · simp [Comm.sendMetadata, Comm.sendPayload, hfeed.metadata]
  · have hpayload := hfeed.payload
    simp only [itemsOf] at hpayload
    simp [Comm.sendMetadata, Comm.sendPayload, itemsOf, Msg.item?, hpayload, hb]
  · rcases List.mem_append.mp hx with hx | hx
    · exact hfeed.valid x hx
    · obtain rfl := List.mem_singleton.mp hx
      exact hitem

/-- The two links of a rank are different. -/
theorem links_ne (hn : 1 < n) (hr : r < n) : (pred n r, r) ≠ (r, succ n r) :=
  fun heq => pred_ne hn hr (congrArg Prod.fst heq)

/-! ## Sending -/

/-- Sending on the link to the successor. -/
theorem Links.send {d' : Desk} {m : Msg} (hn : 1 < n) (hr : r < n)
    (h : Links n r e got rest out d (a, c)) (hframe : Frame n r c c')
    (htaken : ∀ k, (c'.metadata k).taken = (c.metadata k).taken)
    (hpayload : ∀ k, (c'.payload k).taken = (c.payload k).taken)
    (hout : Feed c' (r, succ n r) (out ++ [(e, m)])) (harrived : d'.arrived = d.arrived)
    (hforwarded : d'.forwarded = d.forwarded ++ [m]) (hwaiting : d'.waiting = d.waiting)
    (hposted : d'.posted = d.posted) (hreceive : a'.receivePosted = a.receivePosted) :
    Links n r e got rest (out ++ [(e, m)]) d' (a', c') where
  arrived := harrived.trans h.arrived
  forwarded := by rw [hforwarded, h.forwarded, of_number_append, of_number_single]
  outgoing := hout
  incoming := h.incoming.frame hframe (links_ne hn hr)
  metadata_taken := (htaken _).trans h.metadata_taken
  payload_taken := by
    obtain ⟨front, hfront, heq⟩ := h.payload_taken
    exact ⟨front, by rw [hwaiting, hfront], (hpayload _).trans heq⟩
  got_le := h.got_le
  rest_le := h.rest_le
  positions := by
    rw [hreceive, hposted]
    exact h.positions

/-- A contribution of the box is sent. -/
theorem Holds.send_data {chunk chunk' : Chunk} {box : List Msg}
    (h : Holds n r ins fin d (chunk :: hand) a) (hbox : d.box = .data item :: box)
    (hhead : chunk'.Heads item) (hnone : chunk'.data = none) (hb : b.bytes = item.payload) :
    Holds n r ins fin (d.sendData item box) hand { a with
      fireAndForget := a.fireAndForget + 1
      sentPosted := a.sentPosted ++ [(chunk', b)] } where
  balanced := h.balanced.sendData hbox
  counted := by
    have hc := h.counted
    have hfinish := hc.finish
    have hgoalpost := hc.goalpost
    rw [hbox] at hfinish hgoalpost
    exact ⟨hc.remote, hc.received, hc.expected,
      by simpa [Desk.sendData, Msg.isFinish] using hfinish,
      by simpa [Desk.sendData, Msg.announced] using hgoalpost⟩
  finished := h.finished
  produced := h.produced
  nlocal := h.nlocal
  box := by
    have hall := h.box
    rw [hbox] at hall
    exact (List.forall₂_cons.mp hall).2
  valid := fun m hm => h.valid m (hbox ▸ List.mem_cons_of_mem _ hm)
  waiting := h.waiting
  posted := h.posted
  sending := List.rel_append h.sending (.cons ⟨hhead, hnone, hb⟩ .nil)
  extraction := h.extraction

/-- A finish message of the box is sent. -/
theorem Holds.send_finish {chunk : Chunk} {box : List Msg}
    (h : Holds n r ins fin d (chunk :: hand) a) (hbox : d.box = .finish id :: box) :
    Holds n r ins fin (d.sendFinish id box) hand
      (markFinish (Msg.finish id).announced { a with fireAndForget := a.fireAndForget + 1 }) where
  balanced := h.balanced.sendFinish hbox
  counted := by
    have hc := h.counted
    have hfinish := hc.finish
    have hgoalpost := hc.goalpost
    rw [hbox] at hfinish hgoalpost
    refine ⟨hc.remote, hc.received, hc.expected, ?_, ?_⟩
    · simp only [List.countP_cons, Msg.isFinish, if_true] at hfinish
      simp only [Desk.sendFinish, markFinish]
      omega
    · simp only [List.map_cons, List.sum_cons] at hgoalpost
      simp only [Desk.sendFinish, markFinish]
      omega
  finished := h.finished
  produced := h.produced
  nlocal := h.nlocal
  box := by
    have hall := h.box
    rw [hbox] at hall
    exact (List.forall₂_cons.mp hall).2
  valid := fun m hm => h.valid m (hbox ▸ List.mem_cons_of_mem _ hm)
  waiting := h.waiting
  posted := h.posted
  sending := h.sending
  extraction := h.extraction

/-- The iteration of the first loop. -/
theorem Station.send_chunk {chunk : Chunk} (hn : 1 < n) (hr : r < n)
    (h : Station n r e ins fin got rest out d (chunk :: hand) s)
    (hok : sendChunk n r e s chunk = .ok s') :
    ∃ m d', Station n r e ins fin got rest (out ++ [(e, m)]) d' hand s' ∧ Frame n r s.2 s'.2 := by
  obtain ⟨a, c⟩ := s
  obtain ⟨m, box, hmsg, -, hbox⟩ := List.forall₂_cons_left_iff.mp h.holds.box
  have hvalid : m.Valid := h.holds.valid m (hbox ▸ List.mem_cons_self)
  simp only [sendChunk, hmsg.serialize_eq, hmsg.is_finish_eq] at hok
  cases m with
  | data item =>
      obtain ⟨b, hrelease, hb, hhead⟩ := hmsg.release
      simp only [Msg.isFinish, Bool.false_eq_true, if_false, hrelease] at hok
      cases pure_eq_ok.mp hok
      have hframe : Frame n r c ((c.sendMetadata r (succ n r) e
          (Msg.data item).serialize).sendPayload r (succ n r) e b) :=
        .trans (.send_metadata _) (.send_payload b)
      refine ⟨.data item, d.sendData item box, ⟨h.holds.send_data hbox hhead rfl hb, ?_⟩, hframe⟩
      exact h.links.send hn hr hframe (fun k => taken_send_metadata _ _ _ k)
        (fun k => taken_send_payload _ _ _ k) (h.links.outgoing.send_data hvalid hb) rfl rfl rfl
        rfl rfl
  | finish id =>
      simp only [Msg.isFinish, if_true, hmsg.sequence_eq] at hok
      cases pure_eq_ok.mp hok
      refine ⟨.finish id, d.sendFinish id box, ⟨h.holds.send_finish hbox, ?_⟩,
        .send_metadata _⟩
      exact h.links.send hn hr (.send_metadata _) (fun k => taken_send_metadata _ _ _ k)
        (fun _ => rfl) (h.links.outgoing.send_finish hvalid) rfl rfl rfl rfl rfl

/-! ## Receiving metadata -/

/-- The next metadata message is the first of those not received. -/
theorem Links.next {msg : Bytes} (h : Links n r e got rest out d (a, c))
    (hrecv : c.recvFrom (pred n r) r e = some (msg, c')) :
    ∃ x rest', rest = x :: rest' ∧ msg = x.2.serialize := by
  obtain ⟨y, hnext, hy⟩ := Option.map_eq_some_iff.mp hrecv
  obtain ⟨rfl, -⟩ := Prod.mk.inj hy
  have hmatched : (c.metadata (pred n r, r)).matched = got.length := by
    rw [Channel.matched, h.metadata_taken, List.length_map]
  rw [Channel.next?, hmatched, h.incoming.metadata, List.map_append,
    List.getElem?_append_right (by simp), List.length_map, Nat.sub_self] at hnext
  cases rest with
  | nil => cases hnext
  | cons x rest' =>
      obtain rfl : (x.1, x.2.serialize) = y := by simpa using hnext
      exact ⟨x, rest', rfl, rfl⟩

/-- A finish message is received. -/
theorem Holds.receive_finish (h : Holds n r ins fin d hand a) (id sends : Nat) :
    Holds n r ins fin (d.receiveFinish (succ n r) id) hand
      (markFinish (Msg.finish id).announced { a with
        remoteFinishCounter := a.remoteFinishCounter - 1
        numExpectedMessages := a.numExpectedMessages + (Msg.finish id).announced
        fireAndForget := sends }) where
  balanced := h.balanced.receiveFinish id
  counted := by
    obtain ⟨hremote, hreceived, hexpected, hfinish, hgoalpost⟩ := h.counted
    have hcount : (d.arrived ++ [Msg.finish id]).countP Msg.isFinish
        = d.arrived.countP Msg.isFinish + 1 := by
      simp [Msg.isFinish]
    have hsum : ((d.arrived ++ [Msg.finish id]).map Msg.announced).sum
        = (d.arrived.map Msg.announced).sum + (Msg.finish id).announced := by
      simp
    constructor
    · simp only [Desk.receiveFinish, markFinish, hcount]
      omega
    · simp only [Desk.receiveFinish, markFinish, hcount, List.length_append, List.length_singleton]
      omega
    · simp only [Desk.receiveFinish, markFinish, hsum]
      omega
    · simp only [Desk.receiveFinish, markFinish, hcount]
      omega
    · simp only [Desk.receiveFinish, markFinish, hsum]
      omega
  finished := h.finished
  produced := h.produced
  nlocal := h.nlocal
  box := h.box
  valid := h.valid
  waiting := h.waiting
  posted := h.posted
  sending := h.sending
  extraction := h.extraction

/-- The metadata of a contribution is received. -/
theorem Holds.receive_data {chunk : Chunk} (h : Holds n r ins fin d hand a)
    (hhead : chunk.Heads item) (hdata : ∃ b, chunk.data = some b) :
    Holds n r ins fin (d.receiveData item) hand { a with
      numReceivedMessages := a.numReceivedMessages + 1
      toReceive := a.toReceive ++ [chunk] } where
  balanced := h.balanced.receiveData item
  counted := by
    obtain ⟨hremote, hreceived, hexpected, hfinish, hgoalpost⟩ := h.counted
    have hcount : (d.arrived ++ [Msg.data item]).countP Msg.isFinish
        = d.arrived.countP Msg.isFinish := by
      simp [Msg.isFinish]
    have hsum : ((d.arrived ++ [Msg.data item]).map Msg.announced).sum
        = (d.arrived.map Msg.announced).sum := by
      simp [Msg.announced]
    constructor
    · simpa only [Desk.receiveData, hcount] using hremote
    · simp only [Desk.receiveData, hcount, List.length_append, List.length_singleton]
      omega
    · simpa only [Desk.receiveData, hsum] using hexpected
    · simpa only [Desk.receiveData, hcount] using hfinish
    · simpa only [Desk.receiveData, hsum] using hgoalpost
  finished := h.finished
  produced := h.produced
  nlocal := h.nlocal
  box := h.box
  valid := h.valid
  waiting := List.rel_append h.waiting (.cons ⟨hhead, hdata⟩ .nil)
  posted := h.posted
  sending := h.sending
  extraction := h.extraction

/-- The channels after a message was received, before anything is sent on. -/
theorem Links.receive {d' : Desk} {m : Msg} {msg : Bytes}
    (h : Links n r e got ((e, m) :: rest) out d (a, c))
    (hrecv : c.recvFrom (pred n r) r e = some (msg, c')) (harrived : d'.arrived = d.arrived ++ [m])
    (hforwarded : d'.forwarded = d.forwarded)
    (hwaiting : d'.waiting = d.waiting ++ m.item?.toList) (hposted : d'.posted = d.posted)
    (hreceive : a'.receivePosted = a.receivePosted) :
    Links n r e (got ++ [(e, m)]) rest out d' (a', c') := by
  obtain ⟨-, hsent, hpayload, htaken⟩ := Frame.recv_from hrecv
  have hsplit : got ++ [(e, m)] ++ rest = got ++ (e, m) :: rest := by simp
  refine ⟨?_, hforwarded.trans h.forwarded, h.outgoing.congr (hsent _) (by rw [hpayload]), ?_, ?_,
    ?_, fun x hx => ?_, fun x hx => h.rest_le x (List.mem_cons_of_mem _ hx), ?_⟩
  · rw [harrived, h.arrived, of_number_append, of_number_single]
  · rw [hsplit]
    exact h.incoming.congr (hsent _) (by rw [hpayload])
  · rw [htaken, h.metadata_taken, List.map_append]
    rfl
  · obtain ⟨front, hfront, heq⟩ := h.payload_taken
    refine ⟨front, ?_, by rw [hpayload, heq]⟩
    rw [items_of_append, hfront, hwaiting, List.map_append, List.append_assoc]
    cases m <;> rfl
  · rcases List.mem_append.mp hx with hx | hx
    · exact h.got_le x hx
    · rw [List.mem_singleton.mp hx]
  · rw [hsplit, hreceive, hposted]
    exact h.positions

/-- The body of the metadata loop. -/
theorem Station.receive_message {m : Msg} {msg : Bytes} (hn : 1 < n) (hr : r < n)
    (h : Station n r e ins fin got ((e, m) :: rest) out d hand (a, c))
    (hrecv : c.recvFrom (pred n r) r e = some (msg, c')) (hmsg : msg = m.serialize)
    (memType : MemoryType) :
    ∃ new d', (∀ x ∈ new, x.1 = e)
      ∧ Station n r e ins fin (got ++ [(e, m)]) rest (out ++ new) d' hand
        (receiveMessage n r e (.deserialize msg memType) (a, c'))
      ∧ Frame n r c (receiveMessage n r e (.deserialize msg memType) (a, c')).2 := by
  have hvalid : m.Valid := h.links.incoming.valid (e, m) (by simp)
  have hframe := (Frame.recv_from hrecv).1
  subst hmsg
  cases m with
  | data item =>
      obtain ⟨hhead, hdata⟩ := Chunk.deserialize_data hvalid memType
      have hfinish : (Chunk.deserialize (Msg.data item).serialize memType).isFinish = false := by
        simp [Chunk.isFinish, hhead.metadata]
      refine ⟨[], d.receiveData item, by simp, ?_, ?_⟩
      · simp only [receiveMessage, hfinish, Bool.false_eq_true, if_false, List.append_nil]
        exact ⟨h.holds.receive_data hhead hdata,
          h.links.receive hrecv rfl rfl rfl rfl rfl⟩
      · simpa only [receiveMessage, hfinish, Bool.false_eq_true, if_false] using hframe
  | finish id =>
      have hmsg := Chunk.deserialize_finish hvalid memType
      have hfinish := hmsg.is_finish_eq
      simp only [Msg.isFinish] at hfinish
      by_cases hdst : (Msg.finish id).origin = succ n r
      · refine ⟨[], d.receiveFinish (succ n r) id, by simp, ?_, ?_⟩
        · simp only [receiveMessage, hfinish, if_true, hmsg.origin_eq, hdst, ne_eq,
            not_true_eq_false, if_false, hmsg.sequence_eq, List.append_nil]
          refine ⟨h.holds.receive_finish id _, h.links.receive hrecv rfl ?_ ?_ rfl rfl⟩
          · simp [Desk.receiveFinish, hdst]
          · simp [Desk.receiveFinish, Msg.item?]
        · simpa only [receiveMessage, hfinish, if_true, hmsg.origin_eq, hdst, ne_eq,
            not_true_eq_false, if_false] using hframe
      · refine ⟨[(e, .finish id)], d.receiveFinish (succ n r) id, by simp, ?_, ?_⟩
        · simp only [receiveMessage, hfinish, if_true, hmsg.origin_eq, ne_eq, hdst,
            not_false_eq_true, hmsg.sequence_eq, hmsg.serialize_eq]
          refine ⟨h.holds.receive_finish id _, ?_⟩
          -- first the message is received, then it is sent on
          have hmid : Links n r e (got ++ [(e, .finish id)]) rest out
              { d with arrived := d.arrived ++ [.finish id] } (a, c') :=
            h.links.receive hrecv rfl rfl (by simp [Msg.item?]) rfl rfl
          refine hmid.send hn hr (.send_metadata _) (fun k => taken_send_metadata _ _ _ k)
            (fun _ => rfl) (hmid.outgoing.send_finish hvalid) rfl ?_ rfl rfl rfl
          simp [Desk.receiveFinish, hdst]
        · simp only [receiveMessage, hfinish, if_true, hmsg.origin_eq, ne_eq, hdst,
            not_false_eq_true]
          exact hframe.trans (.send_metadata _)

/-! ## Receiving payloads -/

/-- The next payload to be received is that of the first waiting item. -/
theorem Links.position {waiting : List Item} (h : Links n r e got rest out d (a, c))
    (hwaiting : d.waiting = item :: waiting) :
    (itemsOf (got ++ rest))[(c.payload (pred n r, r)).matched]? = some (e, item) := by
  obtain ⟨front, hfront, htaken⟩ := h.payload_taken
  rw [Channel.matched, htaken, List.length_map, items_of_append, hfront, hwaiting, List.map_cons,
    List.append_assoc, List.getElem?_append_right (le_refl _), Nat.sub_self]
  rfl

/-- The first chunk of `to_receive_` is posted. -/
theorem Station.post_receive (h : Station n r e ins fin got rest out d hand s)
    (hok : postReceive n r e s = .ok s') :
    ∃ d', Station n r e ins fin got rest out d' hand s' ∧ Frame n r s.2 s'.2 := by
  obtain ⟨a, c⟩ := s
  simp only [postReceive] at hok
  split at hok
  case h_1 => cases hok
  case h_2 chunk chunks htoReceive =>
      have hwaiting := h.holds.waiting
      simp only [htoReceive] at hwaiting
      obtain ⟨item, waiting, ⟨hhead, b, hb⟩, hrest, hitems⟩ :=
        List.forall₂_cons_left_iff.mp hwaiting
      obtain ⟨⟨b', chunk'⟩, hrelease, hs⟩ := bind_eq_ok.mp hok
      rw [Chunk.releaseDataBuffer, hb] at hrelease
      cases pure_eq_ok.mp hrelease
      cases pure_eq_ok.mp hs
      obtain ⟨hframe, hsent, hmetadata, htaken⟩ := Frame.recv (n := n) (r := r) (e := e) (c := c) b
      refine ⟨d.post item waiting, ⟨?_, ?_⟩, hframe⟩
      · have hcounted := h.holds.counted
        exact { h.holds with
          balanced := h.holds.balanced.post hitems
          counted := ⟨hcounted.remote, hcounted.received, hcounted.expected, hcounted.finish,
            hcounted.goalpost⟩
          waiting := hrest
          posted := List.rel_append h.holds.posted
            (.cons ⟨⟨hhead.id, hhead.metadata, hhead.dataSize⟩, rfl⟩ .nil) }
      · refine ⟨h.links.arrived, h.links.forwarded,
          h.links.outgoing.congr (by rw [hmetadata]) (hsent _),
          h.links.incoming.congr (by rw [hmetadata]) (hsent _), ?_, ?_, h.links.got_le,
          h.links.rest_le, ?_⟩
        · rw [hmetadata, h.links.metadata_taken]
        · obtain ⟨front, hfront, heq⟩ := h.links.payload_taken
          refine ⟨front ++ [(e, item)], ?_, ?_⟩
          · rw [hfront, hitems]
            simp [Desk.post]
          · rw [htaken, heq, List.map_append]
            rfl
        · exact List.rel_append h.links.positions (.cons ⟨rfl, h.links.position hitems⟩ .nil)

/-- A receive is complete: its buffer has the payload of its item. -/
theorem Links.release {f : RecvFuture} {buf : Buffer} (h : Links n r e got rest out d (a, c))
    (hsrc : f.src = pred n r) (hposition : (itemsOf (got ++ rest))[f.position]? = some (e, item))
    (hok : c.releaseData r f = .ok buf) : buf.bytes = item.payload := by
  have hpayload := congrArg (·[f.position]?) h.incoming.payload
  simp only [List.getElem?_map, hposition, Option.map_some] at hpayload
  obtain ⟨x, hx, heq⟩ := Option.map_eq_some_iff.mp hpayload
  simp only [Comm.releaseData, hsrc, Channel.content?, hx, Option.map_some] at hok
  cases pure_eq_ok.mp hok
  rw [Buffer.bytes_fill]
  exact congrArg Prod.snd heq

/-- The items of a feed are valid. -/
theorem Feed.item_valid (hfeed : Feed c link h) (hitem : (e, item) ∈ itemsOf h) :
    (Msg.data item).Valid := by
  obtain ⟨⟨e', m⟩, hx, heq⟩ := List.mem_filterMap.mp hitem
  obtain ⟨item', hm, hpair⟩ := Option.map_eq_some_iff.mp heq
  obtain ⟨-, rfl⟩ := Prod.mk.inj hpair
  cases m with
  | data item'' =>
      cases hm
      exact hfeed.valid _ hx
  | finish id => cases hm

/-- An item at the end of its way is complete. -/
theorem Holds.receive_last {k : Nat} {chunk : Chunk} (h : Holds n r ins fin d hand a)
    (hdst : (Msg.data item).origin = succ n r) (hitem : d.posted[k]? = some item)
    (hmsg : chunk.Says (.data item)) :
    Holds n r ins fin (d.receive (succ n r) k item) hand { a with
      receivePosted := a.receivePosted.eraseIdx k
      forExtraction := a.forExtraction ++ [chunk] } := by
  have hbalanced := h.balanced.receive hitem
  have hcounted := h.counted
  rw [Desk.receive, if_pos hdst] at hbalanced ⊢
  exact { h with
    balanced := hbalanced
    counted := ⟨hcounted.remote, hcounted.received, hcounted.expected, hcounted.finish,
      hcounted.goalpost⟩
    posted := forall₂_eraseIdx h.posted k
    extraction := List.rel_append h.extraction (.cons hmsg .nil) }

/-- An item that has further to go is complete. -/
theorem Holds.receive_on {k : Nat} {chunk : Chunk} (h : Holds n r ins fin d hand a)
    (hdst : (Msg.data item).origin ≠ succ n r) (hitem : d.posted[k]? = some item)
    (hmsg : chunk.Says (.data item)) (hvalid : (Msg.data item).Valid) :
    Holds n r ins fin (d.receive (succ n r) k item) hand { a with
      receivePosted := a.receivePosted.eraseIdx k
      inserted := a.inserted ++ [chunk] } := by
  have hbalanced := h.balanced.receive hitem
  have hcounted := h.counted
  rw [Desk.receive, if_neg hdst] at hbalanced ⊢
  exact { h with
    balanced := hbalanced
    counted := ⟨hcounted.remote, hcounted.received, hcounted.expected,
      by simpa [Msg.isFinish] using hcounted.finish,
      by simpa [Msg.announced] using hcounted.goalpost⟩
    box := by
      rw [← List.append_assoc]
      exact List.rel_append h.box (.cons hmsg .nil)
    valid := fun m hm => by
      rcases List.mem_append.mp hm with hm | hm
      · exact h.valid m hm
      · obtain rfl := List.mem_singleton.mp hm
        exact hvalid
    posted := forall₂_eraseIdx h.posted k }

/-- The channels after a receive is complete. -/
theorem Links.complete {k : Nat} (h : Links n r e got rest out d (a, c))
    (hreceive : a'.receivePosted = a.receivePosted.eraseIdx k) :
    Links n r e got rest out (d.receive (succ n r) k item) (a', c) := by
  have hpositions := forall₂_eraseIdx h.positions k
  rw [← hreceive] at hpositions
  unfold Desk.receive
  split
  · exact { h with positions := hpositions }
  · exact { h with positions := hpositions }

/-- A receive is reported complete. -/
theorem Station.complete_receive {k : Nat} (h : Station n r e ins fin got rest out d hand s)
    (hok : completeReceive n r s k = .ok s') :
    ∃ d', Station n r e ins fin got rest out d' hand s' ∧ s'.2 = s.2 := by
  obtain ⟨a, c⟩ := s
  simp only [completeReceive] at hok
  split at hok
  case h_1 => cases hok
  case h_2 chunk f hk =>
      obtain ⟨item, hitem, hhead, hnone⟩ := forall₂_getElem? h.holds.posted hk
      obtain ⟨item', hitem', hsrc, hposition⟩ := forall₂_getElem? h.links.positions hk
      obtain rfl : item = item' := Option.some.inj (hitem.symm.trans hitem')
      obtain ⟨buf, hbuf, hok⟩ := bind_eq_ok.mp hok
      obtain ⟨hattach, hmsg⟩ := hhead.attach hnone (h.links.release hsrc hposition hbuf)
      obtain ⟨chunk', hchunk', hok⟩ := bind_eq_ok.mp hok
      obtain rfl := Except.ok.inj (hattach.symm.trans hchunk')
      rw [hmsg.origin_eq] at hok
      refine ⟨d.receive (succ n r) k item, ?_⟩
      split at hok
      case isTrue hdst =>
          cases pure_eq_ok.mp hok
          exact ⟨⟨h.holds.receive_last hdst hitem hmsg, h.links.complete rfl⟩, rfl⟩
      case isFalse hdst =>
          have hvalid := h.links.incoming.item_valid (List.mem_of_getElem? hposition)
          cases pure_eq_ok.mp hok
          exact ⟨⟨h.holds.receive_on hdst hitem hmsg hvalid, h.links.complete rfl⟩, rfl⟩

/-- A send is reported complete. -/
theorem Station.complete_send {k : Nat} (h : Station n r e ins fin got rest out d hand s)
    (hok : completeSend s k = .ok s') :
    ∃ d', Station n r e ins fin got rest out d' hand s' ∧ s'.2 = s.2 := by
  obtain ⟨a, c⟩ := s
  simp only [completeSend] at hok
  split at hok
  case h_1 => cases hok
  case h_2 chunk buf hk =>
      obtain ⟨item, hitem, hhead, hnone, hbytes⟩ := forall₂_getElem? h.holds.sending hk
      obtain ⟨hattach, hmsg⟩ := hhead.attach hnone hbytes
      rw [hattach] at hok
      cases pure_eq_ok.mp hok
      have hcounted := h.holds.counted
      refine ⟨d.sent k item, ⟨?_, ?_⟩, rfl⟩
      · exact { h.holds with
          balanced := h.holds.balanced.sent hitem
          counted := ⟨hcounted.remote, hcounted.received, hcounted.expected, hcounted.finish,
            hcounted.goalpost⟩
          sending := forall₂_eraseIdx h.holds.sending k
          extraction := List.rel_append h.holds.extraction (.cons hmsg .nil) }
      · exact { h.links with positions := h.links.positions }

/-! ## A call of `event_loop` -/

/-- The rank is at work, has sent nothing on but messages of its AllGather, and has left the links
of the others alone. -/
def Working (n r e : Nat) (ins : List Insertion) (fin : Bool) (feed out : List (Nat × Msg))
    (c : Comm) (hand : List Chunk) (s : State) : Prop :=
  ∃ got rest new d, got ++ rest = feed ∧ (∀ x ∈ new, x.1 = e)
    ∧ Station n r e ins fin got rest (out ++ new) d hand s ∧ Frame n r c s.2

/-- The predecessor supplies the AllGather: it sends no message of a later one before the
collective is closed. -/
def Supplied (n e : Nat) (feed : List (Nat × Msg)) : Prop :=
  ∀ got x rest, feed = got ++ x :: rest → (∀ y ∈ x :: rest, e ≤ y.1) →
    x.1 = e ∨ Closed n (ofNumber e got)

/-- Chunks are taken out of `inserted_`. -/
theorem Station.extract {ready left : List Chunk}
    (h : Station n r e ins fin got rest out d [] (a, c)) (hperm : (ready ++ left).Perm a.inserted) :
    ∃ d', Station n r e ins fin got rest out d' ready ({ a with inserted := left }, c) := by
  obtain ⟨box, hbox, hboxPerm⟩ := List.perm_comp_forall₂ hperm h.holds.box
  have hcounted := h.holds.counted
  refine ⟨{ d with box := box }, ?_, { h.links with positions := h.links.positions }⟩
  exact { h.holds with
    balanced := ⟨fun m => by
      rw [hboxPerm.count_eq m]
      exact h.holds.balanced.flow m, h.holds.balanced.extraction⟩
    counted := ⟨hcounted.remote, hcounted.received, hcounted.expected, by
      rw [hboxPerm.countP_eq]
      exact hcounted.finish, by
      rw [(hboxPerm.map Msg.announced).sum_eq]
      exact hcounted.goalpost⟩
    box := hbox
    valid := fun m hm => h.holds.valid m (hboxPerm.subset hm) }

/-- The first loop. -/
theorem Working.send_all {ready : List Chunk} (hn : 1 < n) (hr : r < n)
    (h : Working n r e ins fin feed out c ready s)
    (hok : ready.foldlM (sendChunk n r e) s = .ok s') : Working n r e ins fin feed out c [] s' := by
  induction ready generalizing s with
  | nil =>
      cases pure_eq_ok.mp hok
      exact h
  | cons chunk ready ih =>
      rw [List.foldlM_cons] at hok
      obtain ⟨s₁, hfirst, hrest⟩ := bind_eq_ok.mp hok
      obtain ⟨got, rest, new, d, hfeed, hnew, hstation, hframe⟩ := h
      obtain ⟨m, d', hstation', hframe'⟩ := hstation.send_chunk hn hr hfirst
      refine ih ⟨got, rest, new ++ [(e, m)], d', hfeed, ?_, ?_, hframe.trans hframe'⟩ hrest
      · intro x hx
        rcases List.mem_append.mp hx with hx | hx
        · exact hnew x hx
        · rw [List.mem_singleton.mp hx]
      · rw [← List.append_assoc]
        exact hstation'

theorem Working.send_ready {written : Nat → Bool} (hn : 1 < n) (hr : r < n)
    (h : Working n r e ins fin feed out c [] s) (hok : sendReady n r e written s = .ok s') :
    Working n r e ins fin feed out c [] s' := by
  obtain ⟨got, rest, new, d, hfeed, hnew, hstation, hframe⟩ := h
  obtain ⟨d', hstation'⟩ := hstation.extract (extract_ready_perm written s.1.inserted)
  exact Working.send_all hn hr ⟨got, rest, new, d', hfeed, hnew, hstation', hframe⟩ hok

/-- The metadata loop. -/
theorem Working.receive_metadata {memType : Nat → MemoryType} {arrived : Nat} (hn : 1 < n)
    (hr : r < n) (hsupplied : Supplied n e feed) (h : Working n r e ins fin feed out c [] s) :
    Working n r e ins fin feed out c [] (receiveMetadata n r e memType arrived s) := by
  induction arrived generalizing s with
  | zero => exact h
  | succ arrived ih =>
      simp only [receiveMetadata]
      split
      case isFalse => exact h
      case isTrue hmore =>
          split
          case h_1 => exact h
          case h_2 msg c' hrecv =>
              refine ih ?_
              obtain ⟨a, c₁⟩ := s
              obtain ⟨got, rest, new, d, hfeed, hnew, hstation, hframe⟩ := h
              obtain ⟨⟨number, m⟩, rest', rfl, hmsg⟩ := hstation.links.next hrecv
              have hopen : ¬ Closed n (ofNumber e got) := by
                rw [← hstation.links.arrived, ← hstation.holds.counted.needs_more_eq]
                simpa using hmore
              obtain rfl : number = e :=
                (hsupplied got (number, m) rest' hfeed.symm hstation.links.rest_le).resolve_right
                  hopen
              obtain ⟨new', d', hnew', hstation', hframe'⟩ :=
                hstation.receive_message hn hr hrecv hmsg (memType arrived)
              refine ⟨got ++ [(number, m)], rest', new ++ new', d', by simpa using hfeed, ?_, ?_,
                hframe.trans hframe'⟩
              · intro x hx
                rcases List.mem_append.mp hx with hx | hx
                · exact hnew x hx
                · exact hnew' x hx
              · rw [← List.append_assoc]
                exact hstation'

/-- The loop over `to_receive_`. -/
theorem Working.post_receives {allocated : Nat → Bool} (h : Working n r e ins fin feed out c [] s)
    (hok : postReceives n r e allocated s = .ok s') : Working n r e ins fin feed out c [] s' := by
  refine foldlM_invariant ?_ hok h
  rintro - - s₁ s₂ ⟨got, rest, new, d, hfeed, hnew, hstation, hframe⟩ hstep
  obtain ⟨d', hstation', hframe'⟩ := hstation.post_receive hstep
  exact ⟨got, rest, new, d', hfeed, hnew, hstation', hframe.trans hframe'⟩

/-- The loop over the receives that are complete. -/
theorem Working.complete_receives {ks : List Nat} (h : Working n r e ins fin feed out c [] s)
    (hok : ks.foldlM (completeReceive n r) s = .ok s') :
    Working n r e ins fin feed out c [] s' := by
  refine foldlM_invariant ?_ hok h
  rintro k - s₁ s₂ ⟨got, rest, new, d, hfeed, hnew, hstation, hframe⟩ hstep
  obtain ⟨d', hstation', hcomm⟩ := hstation.complete_receive hstep
  exact ⟨got, rest, new, d', hfeed, hnew, hstation', hcomm ▸ hframe⟩

/-- The loop over the sends that are complete. -/
theorem Working.complete_sends {ks : List Nat} (h : Working n r e ins fin feed out c [] s)
    (hok : ks.foldlM completeSend s = .ok s') : Working n r e ins fin feed out c [] s' := by
  refine foldlM_invariant ?_ hok h
  rintro k - s₁ s₂ ⟨got, rest, new, d, hfeed, hnew, hstation, hframe⟩ hstep
  obtain ⟨d', hstation', hcomm⟩ := hstation.complete_send hstep
  exact ⟨got, rest, new, d', hfeed, hnew, hstation', hcomm ▸ hframe⟩

/-- Members that differ in neither lists nor counters. -/
theorem Station.congr (h : Station n r e ins fin got rest out d hand (a, c)) (sends : Nat)
    (done : Bool) :
    Station n r e ins fin got rest out d hand
      ({ a with fireAndForget := sends, canExtract := done }, c) := by
  have hcounted := h.holds.counted
  exact ⟨{ h.holds with
    counted := ⟨hcounted.remote, hcounted.received, hcounted.expected, hcounted.finish,
      hcounted.goalpost⟩ }, { h.links with positions := h.links.positions }⟩

/-- A call of `event_loop` that returns keeps the rank at work. -/
theorem event_loop_keeps {env : Env} (hn : 1 < n) (hr : r < n) (hsupplied : Supplied n e feed)
    (h : Working n r e ins fin feed out s.2 [] s) (hok : eventLoop n r e env s = .ok s') :
    Working n r e ins fin feed out s.2 [] s' ∧ s'.1.canExtract = isDone s'.1 := by
  rw [eventLoop, if_neg (by omega)] at hok
  obtain ⟨⟨a₆, c₆⟩, hcomm, hs⟩ := bind_eq_ok.mp hok
  obtain ⟨s₁, hsend, hcomm⟩ := bind_eq_ok.mp hcomm
  obtain ⟨s₃, hpost, hcomm⟩ := bind_eq_ok.mp hcomm
  obtain ⟨s₄, hreceive, hcomm⟩ := bind_eq_ok.mp hcomm
  obtain ⟨⟨a₅, c₅⟩, hsent, hcomm⟩ := bind_eq_ok.mp hcomm
  cases pure_eq_ok.mp hcomm
  cases pure_eq_ok.mp hs
  have hsent := ((((h.send_ready hn hr hsend).receive_metadata hn hr hsupplied).post_receives
    hpost).complete_receives hreceive).complete_sends hsent
  obtain ⟨got, rest, new, d, hfeed, hnew, hstation, hframe⟩ := hsent
  exact ⟨⟨got, rest, new, d, hfeed, hnew, hstation.congr _ _, hframe⟩, rfl⟩

end Rapidsmpf.AllGather
