import Rapidsmpf.Lib.Transition
import Rapidsmpf.Exchange.Progress

/-!
# Chains of exchanges on one `op_id`

Any number of ranks run one `TagMetadataPayloadExchange` after another on the same `op_id`. A step
is one call on one rank; a rank goes on to its next exchange when `finish` was called on its
current one and `is_idle` is true. `Inv` is the invariant of all runs in which no rank sends more
than `2 ^ 63` messages through one exchange: with a list of events for every ordered pair of
ranks, every sender keeps its program order (`Sender`) and every receiver its record (`Receiver`).
-/

namespace Rapidsmpf.Exchange

open Protocol Fallible

/-! ## The system -/

/-- The ranks of a communicator, numbered by a `std::int32_t`. -/
structure Cluster where
  nranks : Nat
  allocationTimeout : Nat
  nranks_lt : nranks < 2 ^ 31

/-- All ranks: the channels of the `op_id`, and for each rank the number of its current exchange
and the exchange. `sendCount`, `sent` and `delivered` only record the history: how many messages
a rank sent through its `k`-th exchange, which contents it sent through it to a rank, and which
contents `recv` of its `k`-th exchange returned from a rank. -/
structure Global where
  comm : Comm
  number : Rank → Nat
  exchange : Rank → TagExchange
  sendCount : Rank → Nat → Nat
  sent : Rank → Nat → Rank → List (Bytes × Bytes)
  delivered : Rank → Nat → Rank → List (Bytes × Bytes)

/-- The state before any call. -/
def Global.initial : Global where
  comm := ⟨fun _ => .empty, fun _ => .empty⟩
  number := fun _ => 0
  exchange := fun _ => .initial
  sendCount := fun _ _ => 0
  sent := fun _ _ _ => []
  delivered := fun _ _ _ => []

/-- A call on a rank; `next` destroys the exchange and constructs the next one on the `op_id`. -/
inductive Call (nranks : Nat) where
  | send (messages : List Message)
  | finish
  | progress (env : Env nranks)
  | recv
  | next

/-- The contents of the messages of one peer. -/
def contentsWith (peer : Rank) (messages : List Message) : List (Bytes × Bytes) :=
  (messages.filter fun m => m.peerRank = peer).map Message.content

/-- Store the exchange of a rank and the channels. -/
def Global.put (r : Rank) (x : State) (s : Global) : Global :=
  { s with comm := x.2, exchange := Function.update s.exchange r x.1 }

theorem Global.exchange_put (r : Rank) (x : State) (s : Global) :
    (s.put r x).exchange r = x.1 :=
  Function.update_self _ _ _

/-- Record a batch of sent messages. -/
def Global.logSent (r : Rank) (messages : List Message) (s : Global) : Global :=
  { s with
    sendCount := fun q k =>
      if q = r ∧ k = s.number r then s.sendCount q k + messages.length else s.sendCount q k
    sent := fun q k d =>
      if q = r ∧ k = s.number r then s.sent q k d ++ contentsWith d messages else s.sent q k d }

/-- Record the messages returned by `recv`. -/
def Global.logDelivered (r : Rank) (messages : List Message) (s : Global) : Global :=
  { s with
    delivered := fun q k p =>
      if q = r ∧ k = s.number r then s.delivered q k p ++ contentsWith p messages
      else s.delivered q k p }

namespace Cluster

variable (c : Cluster)

/-- The current exchange of a rank. -/
def current (s : Global) (r : Rank) : Instance :=
  ⟨c.nranks, r, c.allocationTimeout, s.number r⟩

/-- One call on the rank `r`. -/
def call (r : Rank) : Call c.nranks → Global → Except String Global
  | .send messages, s => do
      let x ← send (c.current s r) messages (s.exchange r, s.comm)
      pure ((s.logSent r messages).put r x)
  | .finish, s => do
      let x ← finish (c.current s r) (s.exchange r, s.comm)
      pure (s.put r x)
  | .progress env, s => do
      let x ← progress (c.current s r) env (s.exchange r, s.comm)
      pure (s.put r x)
  | .recv, s => do
      let (messages, st) := recv (s.exchange r)
      pure ((s.logDelivered r messages).put r (st, s.comm))
  | .next, s => do
      if (s.exchange r).finished ∧ isIdle (c.current s r) (s.exchange r) then
        pure { s with
          number := Function.update s.number r (s.number r + 1)
          exchange := Function.update s.exchange r .initial }
      else throw "the exchange is not finished and idle"

/-- The ranks as a transition system: a step is a successful call on one of them. -/
def system : System Global (Rank × Call c.nranks) where
  init := fun s => s = .initial
  step := fun s l s' => l.1 < c.nranks ∧ c.call l.1 l.2 s = .ok s'

/-- A sequence of calls. -/
def run : List (Rank × Call c.nranks) → Global → Except String Global
  | [], s => pure s
  | (r, call) :: calls, s =>
      if r < c.nranks then c.call r call s >>= run calls else throw "no such rank"

/-- Whether a sequence of calls from the initial state succeeds and ends in a state with the given
property. -/
def reaches (calls : List (Rank × Call c.nranks)) (p : Global → Bool) : Bool :=
  match c.run calls .initial with
  | .ok s => p s
  | .error _ => false

end Cluster

/-- No rank sent more than `2 ^ 63` messages through one exchange. -/
def Bounded (s : Global) : Prop :=
  ∀ q k, s.sendCount q k ≤ 2 ^ 63

/-! ## The sender -/

/-- What makes an event admissible at the end of a list of events. -/
def Event.Valid (h : List Event) : Event → Prop
  | .app _ id _ => id < 2 ^ 64 ∧ id ≠ terminationSentinel
  | .marker e count => count = (contents e h).length ∧ count < 2 ^ 64

theorem Events.nil : Events [] where
  after := fun h => by simp at h
  count := fun h => by simp at h
  count_lt := fun h => by simp at h
  id_lt := fun h => by simp at h
  id_ne := fun h => by simp at h

/-- An event of the instance the sender is in keeps the sender's program order. -/
theorem Events.snoc {h : List Event} {x : Event} (hev : Events h)
    (hlt : ∀ k < x.stamp, Closed k h) (hself : ¬ Closed x.stamp h) (hx : x.Valid h) :
    Events (h ++ [x]) where
  after := by
    intro pre post y heq
    rcases List.append_eq_append_iff.mp heq with ⟨as, rfl, has⟩ | ⟨bs, rfl, hbs⟩
    · cases as with
      | nil =>
          obtain ⟨rfl, _⟩ : y = x ∧ post = [] := by simpa [eq_comm] using has
          exact ⟨by simpa using hlt, by simpa using hself⟩
      | cons a as => simp at has
    · cases bs with
      | nil =>
          obtain ⟨rfl, _⟩ : x = y ∧ post = [] := by simpa [eq_comm] using hbs
          exact ⟨by simpa using hlt, by simpa using hself⟩
      | cons b bs =>
          obtain ⟨rfl, _⟩ : y = b ∧ post = bs ++ [x] := by simpa using hbs
          exact hev.after rfl
  count := by
    intro k count hmem
    rcases List.mem_append.mp hmem with hmem | hmem
    · -- nothing of a closed instance is appended
      have hk : x.stamp ≠ k := by
        rintro rfl
        exact hself ⟨count, hmem⟩
      have hnil : contents k [x] = [] := contents_eq_nil (by simpa using hk)
      rw [contents_append, hnil, List.append_nil]
      exact hev.count hmem
    · obtain rfl : x = .marker k count := by simpa [eq_comm] using hmem
      rw [contents_append, contents_marker, List.append_nil]
      exact hx.1
  count_lt := by
    intro k count hmem
    rcases List.mem_append.mp hmem with hmem | hmem
    · exact hev.count_lt hmem
    · obtain rfl : x = .marker k count := by simpa [eq_comm] using hmem
      exact hx.2
  id_lt := by
    intro e id m hmem
    rcases List.mem_append.mp hmem with hmem | hmem
    · exact hev.id_lt hmem
    · obtain rfl : x = .app e id m := by simpa [eq_comm] using hmem
      exact hx.1
  id_ne := by
    intro e id m hmem
    rcases List.mem_append.mp hmem with hmem | hmem
    · exact hev.id_ne hmem
    · obtain rfl : x = .app e id m := by simpa [eq_comm] using hmem
      exact hx.2

/-- The sender's side of an exchange: `h r` are the events it sent to the rank `r` through all its
exchanges, `sent` their contents and `count` the number of messages of the current one. -/
structure Sender (i : Instance) (h : Rank → List Event)
    (sent : Nat → Rank → List (Bytes × Bytes)) (count : Nat) (st : TagExchange) : Prop where
  events : ∀ r, r < i.nranks → r ≠ i.rank → Events (h r)
  stamp_le : ∀ r, r < i.nranks → r ≠ i.rank → ∀ x ∈ h r, x.stamp ≤ i.stamp
  closed_lt : ∀ r, r < i.nranks → r ≠ i.rank → ∀ k < i.stamp, Closed k (h r)
  closed_iff : ∀ r, r < i.nranks → r ≠ i.rank → (Closed i.stamp (h r) ↔ st.finished = true)
  sentTo : ∀ r, r < i.nranks → r ≠ i.rank →
    st.messagesSentTo r = (contents i.stamp (h r)).length
  contents_eq : ∀ r, r < i.nranks → r ≠ i.rank → ∀ k, contents k (h r) = sent k r
  sentTo_le : ∀ r, st.messagesSentTo r ≤ count
  next_eq : st.nextMessageId = count

/-- Sending extends the events of every destination, and only the channels of the sender. -/
structure Extends (q : Rank) (h h' : Rank → List Event) (comm comm' : Comm) : Prop where
  own : ∀ r, ∃ ev, h' r = h r ++ ev
    ∧ comm'.metadata (q, r) = (comm.metadata (q, r)).sendAll (ev.map Event.wire)
    ∧ comm'.gpuData (q, r) = (comm.gpuData (q, r)).sendAll (ev.filterMap Event.payload)
  others : ∀ k : Rank × Rank, k.1 ≠ q →
    comm'.metadata k = comm.metadata k ∧ comm'.gpuData k = comm.gpuData k

theorem Extends.refl (q : Rank) (h : Rank → List Event) (comm : Comm) :
    Extends q h h comm comm :=
  ⟨fun _ => ⟨[], by simp [Channel.sendAll]⟩, fun _ _ => ⟨rfl, rfl⟩⟩

theorem Extends.trans {q : Rank} {h₁ h₂ h₃ : Rank → List Event} {c₁ c₂ c₃ : Comm}
    (h : Extends q h₁ h₂ c₁ c₂) (h' : Extends q h₂ h₃ c₂ c₃) : Extends q h₁ h₃ c₁ c₃ := by
  refine ⟨fun r => ?_, fun k hk => ?_⟩
  · obtain ⟨ev, e1, e2, e3⟩ := h.own r
    obtain ⟨ev', e1', e2', e3'⟩ := h'.own r
    exact ⟨ev ++ ev', by simp [e1, e1'], by simp [e2, e2', Channel.sendAll],
      by simp [e3, e3', Channel.sendAll]⟩
  · exact ⟨((h'.others k hk).1).trans (h.others k hk).1,
      ((h'.others k hk).2).trans (h.others k hk).2⟩

/-- Sending one event to one destination. -/
theorem Extends.one (q dst : Rank) (h : Rank → List Event) (comm : Comm) (x : Event) :
    Extends q h (Function.update h dst (h dst ++ [x])) comm
      ((comm.onMetadata (q, dst) (Channel.send x.wire.1 x.wire.2)).onGpuData (q, dst)
        (Channel.sendAll x.payload.toList)) := by
  refine ⟨fun r => ?_, fun k hk => ?_⟩
  · by_cases hr : r = dst
    · subst hr
      refine ⟨[x], by simp, ?_, ?_⟩
      · simp [Comm.onMetadata, Comm.onGpuData, Channel.send, Channel.sendAll, -Event.wire_fst]
      · cases hp : x.payload <;> simp [Comm.onMetadata, Comm.onGpuData, Channel.sendAll, hp]
    · have hne : (q, r) ≠ (q, dst) := fun heq => hr (Prod.mk.inj heq).2
      refine ⟨[], by simp [Function.update_of_ne hr], ?_, ?_⟩
      · simp [Comm.onMetadata, Comm.onGpuData, Function.update_of_ne hne, Channel.sendAll]
      · simp [Comm.onMetadata, Comm.onGpuData, Function.update_of_ne hne, Channel.sendAll]
  · have hne : k ≠ (q, dst) := fun heq => hk (by rw [heq])
    simp [Comm.onMetadata, Comm.onGpuData, Function.update_of_ne hne]

/-- Only the sending side of the exchange differs. -/
def SameReceiver (st st' : TagExchange) : Prop :=
  ∃ a b c d, st' = { st with
    finished := a, messagesSentTo := b, fireAndForget := c, nextMessageId := d }

theorem SameReceiver.trans {st₁ st₂ st₃ : TagExchange} (h : SameReceiver st₁ st₂)
    (h' : SameReceiver st₂ st₃) : SameReceiver st₁ st₃ := by
  obtain ⟨_, _, _, _, rfl⟩ := h
  obtain ⟨_, _, _, _, rfl⟩ := h'
  exact ⟨_, _, _, _, rfl⟩

/-- An id drawn within the bound fits 64 bits and is not the sentinel: with a rank below `2 ^ 31`
its top bit is zero. -/
theorem message_id_ne {rank next : Nat} (hrank : rank < 2 ^ 31) (hnext : next < 2 ^ 63) :
    messageId rank next < 2 ^ 64 ∧ messageId rank next ≠ terminationSentinel := by
  have hshift : rank <<< 32 < 2 ^ 63 := by
    rw [Nat.shiftLeft_eq]
    omega
  have hor : rank <<< 32 ||| next < 2 ^ 63 := Nat.or_lt_two_pow hshift hnext
  unfold messageId terminationSentinel
  omega

/-- What one iteration of the sending loop does. -/
theorem send_one_spec {i : Instance} {st : TagExchange} {comm : Comm} {m : Message} {s' : State}
    (hok : sendOne i (st, comm) m = .ok s') :
    m.peerRank ≠ i.rank
      ∧ (∃ fire, s'.1 = { st with
          messagesSentTo := Function.update st.messagesSentTo m.peerRank
            (st.messagesSentTo m.peerRank + 1)
          nextMessageId := (st.nextMessageId + 1) % 2 ^ 64
          fireAndForget := fire })
      ∧ s'.2 = (comm.onMetadata (i.rank, m.peerRank) (Channel.send i.stamp
            (combinedMetadata m.metadata (messageId i.rank st.nextMessageId)
              m.payloadSize))).onGpuData (i.rank, m.peerRank)
          (Channel.sendAll
            (Event.app i.stamp (messageId i.rank st.nextMessageId) m).payload.toList) := by
  have hnone : ∀ (k : Rank × Rank) (c : Comm), c.onGpuData k (Channel.sendAll []) = c := by
    intro k c
    simp [Comm.onGpuData, Channel.sendAll]
  simp only [sendOne, check_eq_ok] at hok
  obtain ⟨hne, hok⟩ := hok
  refine ⟨hne, ?_⟩
  cases hd : m.data with
  | none =>
      simp only [hd] at hok
      cases hok
      refine ⟨⟨_, rfl⟩, ?_⟩
      simp [Event.payload, hd, hnone, Comm.sendMetadata]
  | some data =>
      simp only [hd] at hok
      split at hok
      · rename_i hsize
        cases hok
        refine ⟨⟨_, rfl⟩, ?_⟩
        have : 0 < m.payloadSize := by simpa [Message.payloadSize, hd] using hsize
        simp [Event.payload, this, hd, Comm.sendMetadata, Comm.sendData, Channel.sendAll,
          Channel.send, Comm.onGpuData]
      · rename_i hsize
        cases hok
        refine ⟨⟨_, rfl⟩, ?_⟩
        have : ¬ 0 < m.payloadSize := by simpa [Message.payloadSize, hd] using hsize
        simp [Event.payload, this, hnone, Comm.sendMetadata]

/-- One iteration of the sending loop keeps the sender's side. -/
theorem send_one_keeps {i : Instance} (hrank : i.rank < 2 ^ 31) {h : Rank → List Event}
    {sent : Nat → Rank → List (Bytes × Bytes)} {count : Nat} {st : TagExchange} {comm : Comm}
    {m : Message} {s' : State} (hs : Sender i h sent count st) (hopen : st.finished = false)
    (hcount : count < 2 ^ 63) (hok : sendOne i (st, comm) m = .ok s') :
    ∃ h', Sender i h' (fun k d => if k = i.stamp then sent k d ++ contentsWith d [m] else sent k d)
        (count + 1) s'.1
      ∧ Extends i.rank h h' comm s'.2 ∧ SameReceiver st s'.1 ∧ s'.1.finished = false := by
  obtain ⟨hne, ⟨fire, hst⟩, hcomm⟩ := send_one_spec hok
  obtain ⟨st', comm'⟩ := s'
  simp only at hst hcomm
  subst hst hcomm
  obtain ⟨hid, hsentinel⟩ := message_id_ne hrank (hs.next_eq ▸ hcount : st.nextMessageId < 2 ^ 63)
  refine ⟨Function.update h m.peerRank (h m.peerRank ++
    [.app i.stamp (messageId i.rank st.nextMessageId) m]), ?_, Extends.one _ _ _ _ _,
    ⟨_, _, _, _, rfl⟩, hopen⟩
  have hlen : ∀ r, contentsWith r [m] = if m.peerRank = r then [m.content] else [] := by
    intro r
    by_cases hr : m.peerRank = r <;> simp [contentsWith, hr]
  constructor
  case events =>
    intro r hr hrne
    by_cases hdst : r = m.peerRank
    · subst hdst
      rw [Function.update_self]
      refine (hs.events _ hr hrne).snoc (hs.closed_lt _ hr hrne) ?_ ⟨hid, hsentinel⟩
      exact fun hc => by simpa [hopen] using (hs.closed_iff _ hr hrne).mp hc
    · rw [Function.update_of_ne hdst]
      exact hs.events r hr hrne
  case stamp_le =>
    intro r hr hrne x hx
    by_cases hdst : r = m.peerRank
    · subst hdst
      rw [Function.update_self, List.mem_append, List.mem_singleton] at hx
      rcases hx with hx | rfl
      · exact hs.stamp_le _ hr hrne x hx
      · exact Nat.le_refl _
    · rw [Function.update_of_ne hdst] at hx
      exact hs.stamp_le r hr hrne x hx
  case closed_lt =>
    intro r hr hrne k hk
    by_cases hdst : r = m.peerRank
    · subst hdst
      rw [Function.update_self]
      exact closed_append.mpr (Or.inl (hs.closed_lt _ hr hrne k hk))
    · rw [Function.update_of_ne hdst]
      exact hs.closed_lt r hr hrne k hk
  case closed_iff =>
    intro r hr hrne
    by_cases hdst : r = m.peerRank
    · subst hdst
      rw [Function.update_self, closed_append, or_iff_left closed_app]
      exact hs.closed_iff _ hr hrne
    · rw [Function.update_of_ne hdst]
      exact hs.closed_iff r hr hrne
  case sentTo =>
    intro r hr hrne
    by_cases hdst : r = m.peerRank
    · subst hdst
      simp [contents_app, hs.sentTo _ hr hrne]
    · simpa [Function.update_of_ne hdst] using hs.sentTo r hr hrne
  case contents_eq =>
    intro r hr hrne k
    by_cases hdst : r = m.peerRank
    · subst hdst
      rw [Function.update_self, contents_append, contents_app, hs.contents_eq _ hr hrne, hlen]
      by_cases hk : i.stamp = k
      · simp [hk]
      · simp [hk, Ne.symm hk]
    · rw [Function.update_of_ne hdst, hs.contents_eq r hr hrne, hlen]
      simp [Ne.symm hdst]
  case sentTo_le =>
    intro r
    by_cases hdst : r = m.peerRank
    · subst hdst
      simpa using hs.sentTo_le m.peerRank
    · simpa [Function.update_of_ne hdst] using Nat.le_succ_of_le (hs.sentTo_le r)
  case next_eq =>
    simp only [hs.next_eq]
    omega

/-- `send` keeps the sender's side. -/
theorem send_keeps {i : Instance} (hrank : i.rank < 2 ^ 31) {h : Rank → List Event}
    {sent : Nat → Rank → List (Bytes × Bytes)} {count : Nat} {st : TagExchange} {comm : Comm}
    {messages : List Message} {s' : State} (hs : Sender i h sent count st)
    (hcount : count + messages.length ≤ 2 ^ 63) (hok : send i messages (st, comm) = .ok s') :
    ∃ h', Sender i h'
        (fun k d => if k = i.stamp then sent k d ++ contentsWith d messages else sent k d)
        (count + messages.length) s'.1
      ∧ Extends i.rank h h' comm s'.2 ∧ SameReceiver st s'.1 := by
  simp only [send, check_eq_ok] at hok
  obtain ⟨hfin, -, hok⟩ := hok
  have hopen : st.finished = false := by simpa using hfin
  clear hfin
  induction messages generalizing h sent count st comm with
  | nil =>
      cases hok
      exact ⟨h, by simpa [contentsWith] using hs, Extends.refl _ _ _, ⟨_, _, _, _, rfl⟩⟩
  | cons m rest ih =>
      rw [List.foldlM_cons, bind_eq_ok] at hok
      obtain ⟨⟨st₁, comm₁⟩, hone, hok⟩ := hok
      simp only [List.length_cons] at hcount
      obtain ⟨h₁, hs₁, he₁, hr₁, hopen₁⟩ :=
        send_one_keeps hrank hs hopen (by omega) hone
      obtain ⟨h₂, hs₂, he₂, hr₂⟩ := ih hs₁ (by omega) hok hopen₁
      refine ⟨h₂, ?_, he₁.trans he₂, hr₁.trans hr₂⟩
      have hlog : (fun (k : Nat) (d : Rank) =>
          if k = i.stamp then (if k = i.stamp then sent k d ++ contentsWith d [m] else sent k d)
            ++ contentsWith d rest
          else (if k = i.stamp then sent k d ++ contentsWith d [m] else sent k d))
          = fun k d => if k = i.stamp then sent k d ++ contentsWith d (m :: rest)
            else sent k d := by
        funext k d
        by_cases hk : k = i.stamp
        · have hcons : contentsWith d (m :: rest) = contentsWith d [m] ++ contentsWith d rest := by
            rw [contentsWith, ← List.singleton_append, List.filter_append, List.map_append]
            rfl
          simp [hk, hcons]
        · simp [hk]
      rw [hlog, show count + 1 + rest.length = count + (m :: rest).length by
        simp only [List.length_cons]; omega] at hs₂
      exact hs₂

/-- The loop of `finish` sends one marker to each peer of the list. -/
theorem finish_loop {i : Instance} {l : List Rank} (hnodup : l.Nodup) (st : TagExchange)
    (comm : Comm) (h : Rank → List Event) :
    ∃ fire comm', l.foldl (finishPeer i) (st, comm) = ({ st with fireAndForget := fire }, comm')
      ∧ Extends i.rank h (fun r => if r ∈ l ∧ r ≠ i.rank
          then h r ++ [.marker i.stamp (st.messagesSentTo r)] else h r) comm comm' := by
  induction l generalizing st comm h with
  | nil => exact ⟨st.fireAndForget, comm, rfl, by simpa using Extends.refl _ _ _⟩
  | cons peer l ih =>
      obtain ⟨hnot, hnodup⟩ := List.nodup_cons.mp hnodup
      by_cases hpeer : peer = i.rank
      · obtain ⟨fire, comm', hfold, hext⟩ := ih hnodup st comm h
        refine ⟨fire, comm', by simpa [finishPeer, hpeer] using hfold, ?_⟩
        have hsame : ∀ r, (r ∈ peer :: l ∧ r ≠ i.rank) ↔ (r ∈ l ∧ r ≠ i.rank) := by
          intro r
          simp only [List.mem_cons, hpeer]
          tauto
        simpa only [hsame] using hext
      · obtain ⟨fire, comm', hfold, hext⟩ := ih hnodup
          { st with fireAndForget := st.fireAndForget + 1 }
          (comm.sendMetadata i peer (terminationMarker (st.messagesSentTo peer)))
          (Function.update h peer (h peer ++ [.marker i.stamp (st.messagesSentTo peer)]))
        have hone : Extends i.rank h
            (Function.update h peer (h peer ++ [.marker i.stamp (st.messagesSentTo peer)])) comm
            (comm.sendMetadata i peer (terminationMarker (st.messagesSentTo peer))) := by
          have hx := Extends.one i.rank peer h comm (.marker i.stamp (st.messagesSentTo peer))
          simpa [Event.wire, Event.stamp, Event.payload, Comm.onGpuData, Channel.sendAll,
            Comm.sendMetadata] using hx
        refine ⟨fire, comm', by simpa [finishPeer, hpeer] using hfold, ?_⟩
        have hfun : (fun r => if r ∈ l ∧ r ≠ i.rank then
              Function.update h peer (h peer ++ [.marker i.stamp (st.messagesSentTo peer)]) r
                ++ [.marker i.stamp (st.messagesSentTo r)]
            else Function.update h peer (h peer ++ [.marker i.stamp (st.messagesSentTo peer)]) r)
            = fun r => if r ∈ peer :: l ∧ r ≠ i.rank
              then h r ++ [.marker i.stamp (st.messagesSentTo r)] else h r := by
          funext r
          by_cases hr : r = peer
          · subst hr
            simp [hnot, hpeer]
          · simp [hr]
        rw [← hfun]
        exact hone.trans hext

/-- `finish` keeps the sender's side and closes its instance. -/
theorem finish_keeps {i : Instance} {h : Rank → List Event}
    {sent : Nat → Rank → List (Bytes × Bytes)} {count : Nat} {st : TagExchange} {comm : Comm}
    {s' : State} (hs : Sender i h sent count st) (hcount : count ≤ 2 ^ 63)
    (hok : finish i (st, comm) = .ok s') :
    ∃ h', Sender i h' sent count s'.1 ∧ Extends i.rank h h' comm s'.2
      ∧ SameReceiver st s'.1 := by
  simp only [finish, check_eq_ok, pure_eq_ok] at hok
  obtain ⟨hfin, hok⟩ := hok
  have hopen : st.finished = false := by simpa using hfin
  obtain ⟨fire, comm', hfold, hext⟩ :=
    finish_loop (List.nodup_range (n := i.nranks)) { st with finished := true } comm h
  rw [hfold] at hok
  subst hok
  refine ⟨_, ?_, hext, ⟨_, _, _, _, rfl⟩⟩
  have hcond : ∀ r, r < i.nranks → r ≠ i.rank → (r ∈ List.range i.nranks ∧ r ≠ i.rank) :=
    fun r hr hne => ⟨List.mem_range.mpr hr, hne⟩
  have hnot : ∀ r, r < i.nranks → r ≠ i.rank → ¬ Closed i.stamp (h r) := fun r hr hne hc => by
    simpa [hopen] using (hs.closed_iff r hr hne).mp hc
  constructor
  case events =>
    intro r hr hne
    rw [if_pos (hcond r hr hne)]
    refine (hs.events r hr hne).snoc (hs.closed_lt r hr hne) (hnot r hr hne)
      ⟨hs.sentTo r hr hne, ?_⟩
    have hle := hs.sentTo_le r
    show st.messagesSentTo r < 2 ^ 64
    omega
  case stamp_le =>
    intro r hr hne x hx
    rw [if_pos (hcond r hr hne), List.mem_append, List.mem_singleton] at hx
    rcases hx with hx | rfl
    · exact hs.stamp_le r hr hne x hx
    · exact Nat.le_refl _
  case closed_lt =>
    intro r hr hne k hk
    rw [if_pos (hcond r hr hne)]
    exact closed_append.mpr (Or.inl (hs.closed_lt r hr hne k hk))
  case closed_iff =>
    intro r hr hne
    rw [if_pos (hcond r hr hne)]
    simp [closed_append, closed_marker]
  case sentTo =>
    intro r hr hne
    rw [if_pos (hcond r hr hne), contents_append, contents_marker, List.append_nil]
    exact hs.sentTo r hr hne
  case contents_eq =>
    intro r hr hne k
    rw [if_pos (hcond r hr hne), contents_append, contents_marker, List.append_nil]
    exact hs.contents_eq r hr hne k
  case sentTo_le => exact hs.sentTo_le
  case next_eq => exact hs.next_eq

/-! ## The invariant -/

/-- The events of all ordered pairs of ranks agree with the state: `h q r` are those from `q`
to `r`. -/
structure Agrees (c : Cluster) (h : Rank → Rank → List Event) (s : Global) : Prop where
  sender : ∀ q, q < c.nranks →
    Sender (c.current s q) (h q) (s.sent q) (s.sendCount q (s.number q)) (s.exchange q)
  receiver : ∀ r, r < c.nranks →
    Receiver (c.current s r) (fun q => h q r) (s.delivered r (s.number r))
      (s.exchange r).receivedMessages (s.exchange r, s.comm)
  past : ∀ r q, r < c.nranks → q < c.nranks → q ≠ r → ∀ k < s.number r,
    s.delivered r k q <+: contents k (h q r)
  sendCount_fresh : ∀ q k, s.number q < k → s.sendCount q k = 0
  delivered_fresh : ∀ r k, s.number r < k → ∀ q, s.delivered r k q = []

/-- The invariant of the bounded runs. -/
def Inv (c : Cluster) (s : Global) : Prop :=
  ∃ h, Agrees c h s

theorem init_inv (c : Cluster) : Inv c .initial := by
  refine ⟨fun _ _ => [], fun q _ => ?_, fun r _ => ⟨fun q _ _ => ?_, rfl, rfl⟩, ?_, ?_, ?_⟩
  · constructor
    case events => exact fun _ _ _ => .nil
    case closed_iff => simp [Closed, Global.initial, TagExchange.initial]
    all_goals simp [Global.initial, TagExchange.initial, Cluster.current]
  · refine ⟨rfl, rfl, [], [], [], [], [], ?_⟩
    constructor
    case last_eq => exact Or.inl ⟨rfl, rfl⟩
    case transit_records => exact .nil
    case waiting_records => exact .nil
    all_goals simp [peerOf, Global.initial, TagExchange.initial, Cluster.current, Channel.empty,
      Closed]
  all_goals simp [Global.initial]

/-- New events of the peer are not yet taken. -/
theorem Peer.Ok.extend {q e : Nat} {h : List Event} {p : Peer} (hp : p.Ok q e h)
    (ev : List Event) :
    Ok q e (h ++ ev) { p with
      metadata := p.metadata.sendAll (ev.map Event.wire)
      gpuData := p.gpuData.sendAll (ev.filterMap Event.payload) } := by
  obtain ⟨done, transit, waiting, last, rest, hs⟩ := hp.split
  refine ⟨by simp [hp.metadata_sent], by simp [hp.gpuData_sent],
    done, transit, waiting, last, rest ++ ev, ?_⟩
  exact { hs with eq := by simp [hs.eq] }

/-- The receiver's side does not depend on its own sending side. -/
theorem Receiver.same {i : Instance} {h : Rank → List Event}
    {delivered : Rank → List (Bytes × Bytes)} {out : List Message} {st st' : TagExchange}
    {comm : Comm} (hr : Receiver i h delivered out (st, comm)) (hs : SameReceiver st st') :
    Receiver i h delivered out (st', comm) := by
  obtain ⟨_, _, _, _, rfl⟩ := hs
  exact ⟨fun q hq hne => hr.peer q hq hne, hr.incoming_self, hr.transit_self⟩

/-- What another rank sends extends the receiver's side. -/
theorem Receiver.extend {i : Instance} {q : Rank} {h h' : Rank → Rank → List Event}
    {delivered : Rank → List (Bytes × Bytes)} {out : List Message} {st : TagExchange}
    {comm comm' : Comm} (hr : Receiver i (fun p => h p i.rank) delivered out (st, comm))
    (hext : Extends q (h q) (h' q) comm comm') (hothers : ∀ p, p ≠ q → h' p = h p) :
    Receiver i (fun p => h' p i.rank) delivered out (st, comm') := by
  refine ⟨fun p hp hne => ?_, hr.incoming_self, hr.transit_self⟩
  by_cases hpq : p = q
  · subst hpq
    obtain ⟨ev, heq, hmeta, hdata⟩ := hext.own i.rank
    simpa [peerOf, heq, hmeta, hdata] using (hr.peer p hp hne).extend ev
  · obtain ⟨hmeta, hdata⟩ := hext.others (p, i.rank) hpq
    simpa [peerOf, hothers p hpq, hmeta, hdata] using hr.peer p hp hne

/-- The sender's side only depends on the members that concern sending. -/
theorem Sender.same {i : Instance} {h : Rank → List Event}
    {sent : Nat → Rank → List (Bytes × Bytes)} {count : Nat} {st st' : TagExchange}
    (hs : Sender i h sent count st) (hfin : st'.finished = st.finished)
    (hto : st'.messagesSentTo = st.messagesSentTo)
    (hnext : st'.nextMessageId = st.nextMessageId) : Sender i h sent count st' where
  events := hs.events
  stamp_le := hs.stamp_le
  closed_lt := hs.closed_lt
  closed_iff := by rw [hfin]; exact hs.closed_iff
  sentTo := by rw [hto]; exact hs.sentTo
  contents_eq := hs.contents_eq
  sentTo_le := by rw [hto]; exact hs.sentTo_le
  next_eq := by rw [hnext]; exact hs.next_eq

/-! ## The steps -/

section Steps

variable {c : Cluster} {h : Rank → Rank → List Event} {s : Global} {r : Rank}

/-- A step of the rank `r` that only sends. -/
theorem Agrees.sends (ha : Agrees c h s) (hr : r < c.nranks) {events : Rank → List Event}
    {x : State} {sendCount : Rank → Nat → Nat}
    {sent : Rank → Nat → Rank → List (Bytes × Bytes)}
    (hsender : Sender (c.current s r) events (sent r) (sendCount r (s.number r)) x.1)
    (hext : Extends r (h r) events s.comm x.2) (hsame : SameReceiver (s.exchange r) x.1)
    (hsent : ∀ q, q ≠ r → sent q = s.sent q)
    (hcount : ∀ q k, q ≠ r ∨ k ≠ s.number r → sendCount q k = s.sendCount q k) :
    Agrees c (Function.update h r events)
      { s.put r x with sendCount := sendCount, sent := sent } := by
  have hupd : Extends r (h r) (Function.update h r events r) s.comm x.2 := by
    simpa using hext
  constructor
  case sender =>
    intro q hq
    by_cases hqr : q = r
    · subst hqr
      simpa [Global.put, Cluster.current] using hsender
    · simpa [Global.put, Cluster.current, hqr, hsent q hqr, hcount q _ (Or.inl hqr)]
        using ha.sender q hq
  case receiver =>
    intro p hp
    have hrec := (ha.receiver p hp).extend hupd fun q hq => Function.update_of_ne hq _ _
    by_cases hpr : p = r
    · subst hpr
      have hout : x.1.receivedMessages = (s.exchange p).receivedMessages := by
        obtain ⟨_, _, _, _, hx⟩ := hsame
        rw [hx]
      simpa [Global.put, Cluster.current, hout] using hrec.same hsame
    · simpa [Global.put, Cluster.current, hpr] using hrec
  case past =>
    intro p q hp hq hqp k hk
    refine (ha.past p q hp hq hqp k hk).trans ?_
    by_cases hqr : q = r
    · subst hqr
      obtain ⟨ev, heq, _⟩ := hext.own p
      simp [heq]
    · simp [hqr]
  case sendCount_fresh =>
    intro q k hk
    have hk' : s.number q < k := hk
    by_cases hqr : q = r
    · subst hqr
      exact (hcount q k (Or.inr (by omega))).trans (ha.sendCount_fresh q k hk)
    · exact (hcount q k (Or.inl hqr)).trans (ha.sendCount_fresh q k hk)
  case delivered_fresh => exact ha.delivered_fresh

/-- A step of the rank `r` that only receives. -/
theorem Agrees.receives (ha : Agrees c h s) (hr : r < c.nranks) {x : State}
    (hframe : SenderFrame r (s.exchange r, s.comm) x)
    (hrec : Receiver (c.current s r) (fun q => h q r) (s.delivered r (s.number r))
      x.1.receivedMessages x) : Agrees c h (s.put r x) := by
  constructor
  case sender =>
    intro q hq
    by_cases hqr : q = r
    · subst hqr
      simpa [Global.put, Cluster.current] using (ha.sender q hq).same hframe.finished
        hframe.messagesSentTo hframe.nextMessageId
    · simpa [Global.put, Cluster.current, hqr] using ha.sender q hq
  case receiver =>
    intro p hp
    by_cases hpr : p = r
    · subst hpr
      simpa [Global.put, Cluster.current] using hrec
    · -- the channels to other ranks are untouched
      have hold := ha.receiver p hp
      refine ⟨fun q hq hne => ?_, ?_, ?_⟩
      · have hmeta : x.2.metadata (q, p) = s.comm.metadata (q, p) := hframe.metadata (q, p) hpr
        have hdata : x.2.gpuData (q, p) = s.comm.gpuData (q, p) := hframe.gpuData (q, p) hpr
        simpa [Global.put, Cluster.current, hpr, peerOf, hmeta, hdata] using hold.peer q hq hne
      · simpa [Global.put, Cluster.current, hpr] using hold.incoming_self
      · simpa [Global.put, Cluster.current, hpr] using hold.transit_self
  case past => exact ha.past
  case sendCount_fresh => exact ha.sendCount_fresh
  case delivered_fresh => exact ha.delivered_fresh

theorem Agrees.progress (ha : Agrees c h s) (hr : r < c.nranks) {env : Env c.nranks} {x : State}
    (hok : progress (c.current s r) env (s.exchange r, s.comm) = .ok x) :
    Agrees c h (s.put r x) := by
  have hev : ∀ q, q < (c.current s r).nranks → q ≠ (c.current s r).rank → Events (h q r) :=
    fun q hq hne => (ha.sender q hq).events r hr (Ne.symm hne)
  obtain ⟨hframe, hrec⟩ := progress_keeps (h := fun q => h q r) rfl hev hok (ha.receiver r hr)
  exact ha.receives hr hframe hrec

theorem Agrees.recv (ha : Agrees c h s) (hr : r < c.nranks) :
    Agrees c h ((s.logDelivered r (s.exchange r).receivedMessages).put r
      ((Exchange.recv (s.exchange r)).2, s.comm)) := by
  constructor
  case sender =>
    intro q hq
    by_cases hqr : q = r
    · subst hqr
      have hsame : Sender (c.current s q) (h q) (s.sent q) (s.sendCount q (s.number q))
          (Exchange.recv (s.exchange q)).2 := (ha.sender q hq).same rfl rfl rfl
      simpa [Global.put, Global.logDelivered, Cluster.current] using hsame
    · simpa [Global.put, Global.logDelivered, Cluster.current, hqr] using ha.sender q hq
  case receiver =>
    intro p hp
    have hold := ha.receiver p hp
    by_cases hpr : p = r
    · subst hpr
      refine ⟨fun q hq hne => ?_, ?_, ?_⟩
      · simpa [Global.put, Global.logDelivered, Cluster.current, Exchange.recv, peerOf,
          contentsWith] using hold.peer q hq hne
      · simpa [Global.put, Global.logDelivered, Cluster.current, Exchange.recv]
          using hold.incoming_self
      · simpa [Global.put, Global.logDelivered, Cluster.current, Exchange.recv]
          using hold.transit_self
    · simpa [Global.put, Global.logDelivered, Cluster.current, hpr] using hold
  case past =>
    intro p q hp hq hqp k hk
    have hk' : k < s.number p := hk
    have hne : ¬ (p = r ∧ k = s.number r) := by
      rintro ⟨rfl, rfl⟩
      exact Nat.lt_irrefl _ hk'
    simpa [Global.put, Global.logDelivered, hne] using ha.past p q hp hq hqp k hk
  case sendCount_fresh => exact ha.sendCount_fresh
  case delivered_fresh =>
    intro p k hk q
    have hk' : s.number p < k := hk
    have hne : ¬ (p = r ∧ k = s.number r) := by
      rintro ⟨rfl, rfl⟩
      exact Nat.lt_irrefl _ hk'
    simpa [Global.put, Global.logDelivered, hne] using ha.delivered_fresh p k hk q

/-- A finished and idle exchange has taken the markers of all peers and holds nothing back. -/
theorem Agrees.idle (ha : Agrees c h s) (hr : r < c.nranks)
    (hfin : (s.exchange r).finished = true)
    (hidle : isIdle (c.current s r) (s.exchange r) = true) {q : Rank} (hq : q < c.nranks)
    (hne : q ≠ r) :
    ∃ done count rest, Split q (s.number r) (h q r)
      (peerOf r q (s.delivered r (s.number r) q) (s.exchange r).receivedMessages
        (s.exchange r, s.comm)) done [] [] [.marker (s.number r) count] rest := by
  have hio : (s.exchange r).incomingMessages q = [] ∧ (s.exchange r).inTransitMessages q = []
      ∧ peerDone (s.exchange r) q = true := by
    simp only [isIdle, hfin, Cluster.current, Bool.and_eq_true, List.all_eq_true, List.mem_range,
      List.isEmpty_iff, not_true_eq_false, if_false, Bool.or_eq_true, beq_iff_eq] at hidle
    obtain ⟨hdone, ⟨⟨_, hin⟩, htr⟩, _⟩ := hidle
    exact ⟨hin q hq, htr q hq, (hdone q hq).resolve_left hne⟩
  obtain ⟨hin, htr, hdone⟩ := hio
  rw [(ha.receiver r hr).peerDone hq hne] at hdone
  obtain ⟨done, transit, waiting, last, rest, hs⟩ := ((ha.receiver r hr).peer q hq hne).split
  obtain rfl : transit = [] := by
    have hrec : List.Forall₂ _ transit ((s.exchange r).inTransitMessages q) := hs.transit_records
    rw [htr] at hrec
    cases hrec
    rfl
  obtain rfl : waiting = [] := by
    have hrec : List.Forall₂ _ waiting ((s.exchange r).incomingMessages q) := hs.waiting_records
    rw [hin] at hrec
    cases hrec
    rfl
  rcases hs.last_eq with ⟨hopen, _⟩ | ⟨_, count, rfl⟩
  · exact absurd (hdone.symm.trans hopen) (by simp)
  · exact ⟨done, count, rest, hs⟩

/-- The next exchange of a rank that is done has sent nothing yet. -/
theorem Agrees.next_sender {q : Rank} (ha : Agrees c h s) (hq : q < c.nranks)
    (hfin : (s.exchange q).finished = true) :
    Sender { c.current s q with stamp := s.number q + 1 } (h q) (s.sent q)
      (s.sendCount q (s.number q + 1)) .initial := by
  have hold := ha.sender q hq
  have hnew : ∀ p, p < c.nranks → p ≠ q → contents (s.number q + 1) (h q p) = [] := by
    intro p hp hne
    refine contents_eq_nil fun x hx heq => ?_
    have : x.stamp ≤ s.number q := hold.stamp_le p hp hne x hx
    omega
  constructor
  case events => exact hold.events
  case stamp_le =>
    intro p hp hne x hx
    exact Nat.le_succ_of_le (hold.stamp_le p hp hne x hx)
  case closed_lt =>
    intro p hp hne k hk
    rcases Nat.lt_succ_iff_lt_or_eq.mp hk with hk | rfl
    · exact hold.closed_lt p hp hne k hk
    · exact (hold.closed_iff p hp hne).mpr hfin
  case closed_iff =>
    intro p hp hne
    simp only [TagExchange.initial, Bool.false_eq_true, iff_false]
    rintro ⟨count, hmem⟩
    have : s.number q + 1 ≤ s.number q := hold.stamp_le p hp hne _ hmem
    omega
  case sentTo =>
    intro p hp hne
    simp [TagExchange.initial, hnew p hp hne]
  case contents_eq => exact hold.contents_eq
  case sentTo_le => simp [TagExchange.initial]
  case next_eq =>
    simpa [TagExchange.initial] using (ha.sendCount_fresh q _ (Nat.lt_succ_self _)).symm

/-- The next exchange of a rank has received nothing yet: the marker that closes what the peer has
sent through the old one is all that was taken of it last. -/
theorem Agrees.next_peer {q : Rank} (ha : Agrees c h s) (hr : r < c.nranks)
    (hfin : (s.exchange r).finished = true)
    (hidle : isIdle (c.current s r) (s.exchange r) = true) (hq : q < c.nranks) (hne : q ≠ r) :
    (peerOf r q (s.delivered r (s.number r + 1) q) [] (TagExchange.initial, s.comm)).Ok q
      (s.number r + 1) (h q r) := by
  obtain ⟨done, count, rest, hs⟩ := ha.idle hr hfin hidle hq hne
  have hold := (ha.receiver r hr).peer q hq hne
  have hnew : contents (s.number r + 1) (done ++ [.marker (s.number r) count]) = [] := by
    refine contents_eq_nil fun x hx heq => ?_
    rcases List.mem_append.mp hx with hx | hx
    · have := hs.done_stamp x hx
      omega
    · simp only [List.mem_singleton] at hx
      simp [hx, Event.stamp] at heq
  refine ⟨hold.metadata_sent, hold.gpuData_sent,
    done ++ [.marker (s.number r) count], [], [], [], rest, ?_⟩
  constructor
  case eq => simpa using hs.eq
  case metadata_taken => simpa [peerOf] using hs.metadata_taken
  case gpuData_taken =>
    simpa [peerOf, List.filterMap_cons, Event.payload] using hs.gpuData_taken
  case transit_records => simp [peerOf, TagExchange.initial]
  case transit_payload => simp
  case waiting_records => simp [peerOf, TagExchange.initial]
  case last_eq => exact Or.inl (by simp [peerOf, TagExchange.initial])
  case out_eq =>
    have hdl := ha.delivered_fresh r (s.number r + 1) (Nat.lt_succ_self _) q
    simpa [peerOf, TagExchange.initial, hdl] using hnew.symm
  case done_stamp =>
    intro x hx
    rcases List.mem_append.mp hx with hx | hx
    · exact Nat.le_succ_of_le (hs.done_stamp x hx)
    · simp only [List.mem_singleton] at hx
      simp [hx, Event.stamp]
  case done_closed =>
    intro k hk
    rw [closed_append, closed_marker]
    rcases Nat.lt_succ_iff_lt_or_eq.mp hk with hk | hk
    · exact Or.inl (hs.done_closed k hk)
    · exact Or.inr hk
  case done_open =>
    simp only [closed_append, closed_marker, not_or]
    refine ⟨?_, by omega⟩
    rintro ⟨j, hmem⟩
    have : s.number r + 1 ≤ s.number r := hs.done_stamp _ hmem
    omega
  case received_eq =>
    have hlen := congrArg List.length hnew
    simpa [peerOf, TagExchange.initial, eq_comm] using hlen
  case expected_eq => simp [peerOf, TagExchange.initial]
  case future_eq => simp [peerOf, TagExchange.initial]

/-- A rank whose exchange is done begins the next one. -/
theorem Agrees.next (ha : Agrees c h s) (hr : r < c.nranks)
    (hfin : (s.exchange r).finished = true)
    (hidle : isIdle (c.current s r) (s.exchange r) = true) :
    Agrees c h { s with
      number := Function.update s.number r (s.number r + 1)
      exchange := Function.update s.exchange r .initial } := by
  constructor
  case sender =>
    intro q hq
    by_cases hqr : q = r
    · subst hqr
      simpa [Cluster.current] using ha.next_sender hq hfin
    · simpa [Cluster.current, hqr] using ha.sender q hq
  case receiver =>
    intro p hp
    by_cases hpr : p = r
    · subst hpr
      refine ⟨fun q hq hne => ?_, by simp [TagExchange.initial, Cluster.current],
        by simp [TagExchange.initial, Cluster.current]⟩
      simpa [Cluster.current, TagExchange.initial] using ha.next_peer hr hfin hidle hq hne
    · simpa [Cluster.current, hpr] using ha.receiver p hp
  case past =>
    intro p q hp hq hqp k hk
    by_cases hpr : p = r
    · subst hpr
      simp only [Function.update_self] at hk
      rcases Nat.lt_succ_iff_lt_or_eq.mp hk with hk | rfl
      · exact ha.past p q hp hq hqp k hk
      · obtain ⟨done, count, rest, hs⟩ := ha.idle hr hfin hidle hq hqp
        have hpre : s.delivered p (s.number p) q <+: contents (s.number p) done :=
          ⟨_, hs.out_eq⟩
        refine hpre.trans ?_
        rw [hs.eq]
        simp
    · simp only [Function.update_of_ne hpr] at hk
      exact ha.past p q hp hq hqp k hk
  case sendCount_fresh =>
    intro q k hk
    by_cases hqr : q = r
    · subst hqr
      simp only [Function.update_self] at hk
      exact ha.sendCount_fresh q k (by omega)
    · simp only [Function.update_of_ne hqr] at hk
      exact ha.sendCount_fresh q k hk
  case delivered_fresh =>
    intro q k hk p
    by_cases hqr : q = r
    · subst hqr
      simp only [Function.update_self] at hk
      exact ha.delivered_fresh q k (by omega) p
    · simp only [Function.update_of_ne hqr] at hk
      exact ha.delivered_fresh q k hk p

/-- Calls only add to the number of messages sent. -/
theorem call_sendCount_le {call : Call c.nranks} {s' : Global} (hok : c.call r call s = .ok s')
    (q k : Nat) : s.sendCount q k ≤ s'.sendCount q k := by
  cases call with
  | send messages =>
      simp only [Cluster.call, bind_eq_ok, pure_eq_ok] at hok
      obtain ⟨x, _, rfl⟩ := hok
      simp only [Global.logSent, Global.put]
      split <;> omega
  | finish | progress =>
      simp only [Cluster.call, bind_eq_ok, pure_eq_ok] at hok
      obtain ⟨x, _, rfl⟩ := hok
      exact Nat.le_refl _
  | recv =>
      cases hok
      exact Nat.le_refl _
  | next =>
      simp only [Cluster.call] at hok
      split at hok
      · cases hok
        exact Nat.le_refl _
      · cases hok

/-- The number of messages a call sends. -/
def Call.messages {n : Nat} : Call n → Nat
  | .send messages => messages.length
  | _ => 0

/-- Calls add at most their own messages to the number of messages sent. -/
theorem call_sendCount_le_add {call : Call c.nranks} {s' : Global}
    (hok : c.call r call s = .ok s') (q k : Nat) :
    s'.sendCount q k ≤ s.sendCount q k + call.messages := by
  cases call with
  | send messages =>
      simp only [Cluster.call, bind_eq_ok, pure_eq_ok] at hok
      obtain ⟨x, _, rfl⟩ := hok
      simp only [Global.logSent, Global.put, Call.messages]
      split <;> omega
  | finish | progress =>
      simp only [Cluster.call, bind_eq_ok, pure_eq_ok] at hok
      obtain ⟨x, _, rfl⟩ := hok
      exact Nat.le_refl _
  | recv =>
      cases hok
      exact Nat.le_refl _
  | next =>
      simp only [Cluster.call] at hok
      split at hok
      · cases hok
        exact Nat.le_refl _
      · cases hok

/-- A sequence of calls reaches a state within the bound if it sends few enough messages. -/
theorem run_reaches {calls : List (Rank × Call c.nranks)} {s' : Global}
    (hs : c.system.Reachable s) (h : c.run calls s = .ok s') :
    c.system.Reachable s'
      ∧ ∀ q k, s'.sendCount q k ≤ s.sendCount q k + (calls.map fun l => l.2.messages).sum := by
  induction calls generalizing s with
  | nil =>
      cases h
      exact ⟨hs, fun _ _ => Nat.le_refl _⟩
  | cons l calls ih =>
      obtain ⟨r, call⟩ := l
      simp only [Cluster.run] at h
      split at h
      · rename_i hr
        obtain ⟨t, hcall, hrest⟩ := bind_eq_ok.mp h
        have hstep : c.system.step s (r, call) t := ⟨hr, hcall⟩
        obtain ⟨hreach, hcount⟩ := ih (hs.next hstep) hrest
        refine ⟨hreach, fun q k => ?_⟩
        have h1 := hcount q k
        have h2 := call_sendCount_le_add hcall q k
        simp only [List.map_cons, List.sum_cons]
        omega
      · cases h

theorem exists_of_reaches {calls : List (Rank × Call c.nranks)} {p : Global → Bool}
    (h : c.reaches calls p = true)
    (hcount : (calls.map fun l => l.2.messages).sum ≤ 2 ^ 63) :
    ∃ s, c.system.Reachable s ∧ Bounded s ∧ p s = true := by
  unfold Cluster.reaches at h
  split at h
  · rename_i s hrun
    obtain ⟨hreach, hle⟩ := run_reaches (.of_init rfl) hrun
    refine ⟨s, hreach, fun q k => ?_, h⟩
    have := hle q k
    simp only [Global.initial, Nat.zero_add] at this
    omega
  · cases h

/-- Every call keeps the invariant. -/
theorem call_inv {call : Call c.nranks} {s' : Global} (hr : r < c.nranks) (hi : Inv c s)
    (hb : Bounded s') (hok : c.call r call s = .ok s') : Inv c s' := by
  obtain ⟨h, ha⟩ := hi
  have hrank : r < 2 ^ 31 := Nat.lt_trans hr c.nranks_lt
  cases call with
  | send messages =>
      simp only [Cluster.call, bind_eq_ok, pure_eq_ok] at hok
      obtain ⟨x, hsend, rfl⟩ := hok
      have hbound := hb r (s.number r)
      simp only [Global.logSent, Global.put, and_self, if_true] at hbound
      obtain ⟨events, hs, hext, hsame⟩ := send_keeps hrank (ha.sender r hr) hbound hsend
      refine ⟨_, ha.sends hr ?_ hext hsame (fun q hq => ?_) (fun q k hqk => ?_)⟩
      · have hs' : Sender (c.current s r) events
            (fun k d => if k = s.number r then s.sent r k d ++ contentsWith d messages
              else s.sent r k d) (s.sendCount r (s.number r) + messages.length) x.1 := hs
        simpa [Global.logSent] using hs'
      · simp [Global.logSent, hq]
      · simp only [Global.logSent]
        rw [if_neg]
        rintro ⟨rfl, rfl⟩
        rcases hqk with hq | hk
        · exact hq rfl
        · exact hk rfl
  | finish =>
      simp only [Cluster.call, bind_eq_ok, pure_eq_ok] at hok
      obtain ⟨x, hfin, rfl⟩ := hok
      obtain ⟨events, hs, hext, hsame⟩ :=
        finish_keeps (ha.sender r hr) (hb r (s.number r)) hfin
      exact ⟨_, ha.sends hr hs hext hsame (fun _ _ => rfl) (fun _ _ _ => rfl)⟩
  | progress env =>
      simp only [Cluster.call, bind_eq_ok, pure_eq_ok] at hok
      obtain ⟨x, hprog, rfl⟩ := hok
      exact ⟨h, ha.progress hr hprog⟩
  | recv =>
      cases hok
      exact ⟨h, ha.recv hr⟩
  | next =>
      simp only [Cluster.call] at hok
      split at hok
      · rename_i hdone
        cases hok
        exact ⟨h, ha.next hr hdone.1 hdone.2⟩
      · cases hok

/-- The invariant holds in every reachable state within the bound. -/
theorem reachable_inv (hs : c.system.Reachable s) (hb : Bounded s) : Inv c s := by
  refine hs.invariant (I := fun s => Bounded s → Inv c s) ?_ ?_ hb
  · rintro s rfl _
    exact init_inv c
  · rintro s ⟨r, call⟩ s' hi ⟨hr, hok⟩ hb'
    exact call_inv hr (hi fun q k => (call_sendCount_le hok q k).trans (hb' q k)) hb' hok

end Steps

end Rapidsmpf.Exchange
