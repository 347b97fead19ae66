import Mathlib
import Rapidsmpf.Exchange.Delivery
import Rapidsmpf.Exchange.MessageIds

/-!
# Receive buffers

The bookkeeping of `TagMetadataPayloadExchange` for the messages that wait for a receive buffer:
`num_awaiting_buffer_`, `total_awaiting_buffer_` and `allocation_stall_start_`. `Accounts` says what
they are in terms of `incoming_messages_`. Every part of `progress` keeps it, and `bookkeeping_kept`
draws the consequences between any two parts of any run.
-/

namespace Rapidsmpf.Exchange

open Protocol Fallible

/-! ## The messages of one peer -/

/-- The number of messages that wait for a buffer. -/
def waitingIn (ms : List TagMessage) : Nat :=
  ms.countP TagMessage.isAwaitingBuffer

/-- The messages that wait for a buffer. -/
def waiting (ms : List TagMessage) : List TagMessage :=
  ms.filter TagMessage.isAwaitingBuffer

/-- The messages that have a payload. -/
def withPayload (ms : List TagMessage) : List TagMessage :=
  ms.filter fun m => decide (0 < m.expectedPayloadSize)

/-- `m'` is `m` with a receive buffer. -/
structure Filled (m m' : TagMessage) : Prop where
  waiting : m.isAwaitingBuffer = true
  filled : m'.isAwaitingBuffer = false
  size : m'.expectedPayloadSize = m.expectedPayloadSize
  id : m'.messageId = m.messageId
  arrival : m'.arrival = m.arrival
  peerRank : m'.message.peerRank = m.message.peerRank

/-- The messages of the peer `q`: after one that waits for a buffer all with a payload do, and they
are in the order of their arrival. -/
structure Queue (q : Rank) (next : Nat) (ms : List TagMessage) : Prop where
  ordered : ms.Pairwise fun m m' =>
    m.isAwaitingBuffer = true → 0 < m'.expectedPayloadSize → m'.isAwaitingBuffer = true
  arrival : ms.Pairwise fun m m' => m.arrival < m'.arrival
  arrival_lt : ∀ m ∈ ms, m.arrival < next
  peerRank : ∀ m ∈ ms, m.message.peerRank = q

section Queue

variable {q : Rank} {next : Nat} {ms l : List TagMessage} {m m' : TagMessage}

theorem TagMessage.payload_of_waiting (h : m.isAwaitingBuffer = true) :
    0 < m.expectedPayloadSize := by
  unfold TagMessage.isAwaitingBuffer at h
  rw [Bool.and_eq_true, decide_eq_true_eq] at h
  exact h.1

theorem Queue.nil : Queue q next [] :=
  ⟨.nil, .nil, by simp, by simp⟩

theorem Queue.sublist (hq : Queue q next ms) (hsub : l.Sublist ms) : Queue q next l where
  ordered := hq.ordered.sublist hsub
  arrival := hq.arrival.sublist hsub
  arrival_lt m hm := hq.arrival_lt m (hsub.subset hm)
  peerRank m hm := hq.peerRank m (hsub.subset hm)

theorem Queue.succ (hq : Queue q next ms) : Queue q (next + 1) ms :=
  { hq with arrival_lt := fun m hm => Nat.lt_succ_of_lt (hq.arrival_lt m hm) }

/-- A message arrives. If it gets a buffer at once, none waits before it. -/
theorem Queue.snoc (hq : Queue q next ms) (harrival : m.arrival = next)
    (hpeer : m.message.peerRank = q)
    (hlast : waitingIn ms = 0 ∨ m.isAwaitingBuffer = true ∨ m.expectedPayloadSize = 0) :
    Queue q (next + 1) (ms ++ [m]) where
  ordered := by
    refine List.pairwise_append.mpr ⟨hq.ordered, by simp, fun x hx y hy hwait hsize => ?_⟩
    cases List.mem_singleton.mp hy
    rcases hlast with hnone | hm | hm
    · exact absurd hwait (List.countP_eq_zero.mp hnone x hx)
    · exact hm
    · omega
  arrival := by
    refine List.pairwise_append.mpr ⟨hq.arrival, by simp, fun x hx y hy => ?_⟩
    cases List.mem_singleton.mp hy
    rw [harrival]
    exact hq.arrival_lt x hx
  arrival_lt := by
    intro x hx
    rcases List.mem_append.mp hx with hx | hx
    · exact Nat.lt_succ_of_lt (hq.arrival_lt x hx)
    · cases List.mem_singleton.mp hx
      rw [harrival]
      exact Nat.lt_succ_self _
  peerRank := by
    intro x hx
    rcases List.mem_append.mp hx with hx | hx
    · exact hq.peerRank x hx
    · cases List.mem_singleton.mp hx
      exact hpeer

theorem mem_replace_waiting {x : TagMessage} (h : x ∈ replaceWaiting m' ms) :
    x = m' ∨ x ∈ ms := by
  induction ms with
  | nil => cases h
  | cons y ms ih =>
      unfold replaceWaiting at h
      split at h
      · exact (List.mem_cons.mp h).imp_right (List.mem_cons_of_mem y)
      · rcases List.mem_cons.mp h with rfl | h
        · exact .inr List.mem_cons_self
        · exact (ih h).imp_right (List.mem_cons_of_mem y)

/-- The first message that waits gets its buffer. -/
theorem Queue.replace (hq : Queue q next ms)
    (hfind : ms.find? TagMessage.isAwaitingBuffer = some m) (hf : Filled m m') :
    Queue q next (replaceWaiting m' ms) ∧ waitingIn (replaceWaiting m' ms) + 1 = waitingIn ms := by
  have hmem : ∀ {l : List TagMessage}, l.find? TagMessage.isAwaitingBuffer = some m → m ∈ l :=
    List.mem_of_find?_eq_some
  induction ms with
  | nil => cases hfind
  | cons x ms ih =>
      obtain ⟨hordered, harrival, hlt, hpeer⟩ := hq
      have htail : Queue q next ms :=
        Queue.sublist ⟨hordered, harrival, hlt, hpeer⟩ (List.sublist_cons_self x ms)
      rw [List.pairwise_cons] at hordered harrival
      unfold replaceWaiting
      cases hx : x.isAwaitingBuffer with
      | true =>
          have hxm : x = m := by
            rw [List.find?_cons, hx] at hfind
            exact Option.some.inj hfind
          subst hxm
          rw [if_pos rfl]
          refine ⟨⟨List.pairwise_cons.mpr ⟨fun y _ hwait => ?_, htail.ordered⟩,
            List.pairwise_cons.mpr ⟨fun y hy => ?_, htail.arrival⟩, fun y hy => ?_,
            fun y hy => ?_⟩, ?_⟩
          · rw [hf.filled] at hwait
            cases hwait
          · rw [hf.arrival]
            exact harrival.1 y hy
          · rcases List.mem_cons.mp hy with rfl | hy
            · rw [hf.arrival]
              exact hlt x List.mem_cons_self
            · exact htail.arrival_lt y hy
          · rcases List.mem_cons.mp hy with rfl | hy
            · rw [hf.peerRank]
              exact hpeer x List.mem_cons_self
            · exact htail.peerRank y hy
          · simp [waitingIn, hf.filled, hx]
      | false =>
          have hfind' : ms.find? TagMessage.isAwaitingBuffer = some m := by
            rwa [List.find?_cons, hx] at hfind
          obtain ⟨hqueue, hcount⟩ := ih htail hfind'
          rw [if_neg (by simp)]
          refine ⟨⟨List.pairwise_cons.mpr ⟨fun y _ hwait => ?_, hqueue.ordered⟩,
            List.pairwise_cons.mpr ⟨fun y hy => ?_, hqueue.arrival⟩, fun y hy => ?_,
            fun y hy => ?_⟩, ?_⟩
          · rw [hx] at hwait
            cases hwait
          · rcases mem_replace_waiting hy with rfl | hy
            · rw [hf.arrival]
              exact harrival.1 m (hmem hfind')
            · exact harrival.1 y hy
          · rcases List.mem_cons.mp hy with rfl | hy
            · exact hlt y List.mem_cons_self
            · exact hqueue.arrival_lt y hy
          · rcases List.mem_cons.mp hy with rfl | hy
            · exact hpeer y List.mem_cons_self
            · exact hqueue.peerRank y hy
          · simpa [waitingIn, hx] using hcount

/-- Among the messages with a payload, those that wait for a buffer are the last ones. -/
theorem Queue.suffix (hq : Queue q next ms) : waiting ms <:+ withPayload ms := by
  induction ms with
  | nil => exact List.suffix_rfl
  | cons x ms ih =>
      have htail := ih (hq.sublist (List.sublist_cons_self x ms))
      obtain ⟨hfirst, -⟩ := List.pairwise_cons.mp hq.ordered
      unfold waiting withPayload at htail ⊢
      cases hx : x.isAwaitingBuffer with
      | true =>
          have hall : ms.filter TagMessage.isAwaitingBuffer =
              ms.filter fun m => decide (0 < m.expectedPayloadSize) := by
            refine List.filter_congr fun y hy => Bool.eq_iff_iff.mpr ?_
            rw [decide_eq_true_eq]
            exact ⟨TagMessage.payload_of_waiting, hfirst y hy hx⟩
          rw [List.filter_cons_of_pos hx, List.filter_cons_of_pos
            (by simpa using TagMessage.payload_of_waiting hx), hall]
      | false =>
          rw [List.filter_cons_of_neg (by simp [hx])]
          refine htail.trans ?_
          rw [List.filter_cons]
          split
          · exact List.suffix_cons x _
          · exact List.suffix_rfl

end Queue

/-! ## The oldest message that waits -/

section Oldest

variable {i : Instance} {st : TagExchange} {m : TagMessage}

theorem older_none_iff {a b : Option TagMessage} : older a b = none ↔ a = none ∧ b = none := by
  cases a with
  | none => simp [older]
  | some a =>
      cases b with
      | none => simp [older]
      | some b =>
          simp only [older]
          split <;> simp

theorem older_le {a b : Option TagMessage} (h : older a b = some m) :
    (∀ x, a = some x → m.arrival ≤ x.arrival) ∧ ∀ x, b = some x → m.arrival ≤ x.arrival := by
  cases a with
  | none =>
      refine ⟨fun x hx => (by cases hx), fun x hx => ?_⟩
      have hbx : b = some m := h
      rw [hbx] at hx
      cases hx
      exact Nat.le_refl _
  | some a =>
      cases b with
      | none =>
          refine ⟨fun x hx => ?_, fun x hx => (by cases hx)⟩
          cases hx
          cases h
          exact Nat.le_refl _
      | some b =>
          simp only [older] at h
          split at h
          · next hlt =>
              cases h
              refine ⟨fun x hx => ?_, fun x hx => ?_⟩
              · cases hx
                exact hlt.le
              · cases hx
                exact Nat.le_refl _
          · next hle =>
              cases h
              refine ⟨fun x hx => ?_, fun x hx => ?_⟩
              · cases hx
                exact Nat.le_refl _
              · cases hx
                exact Nat.le_of_not_lt hle

/-- The loop over the peers. -/
theorem fold_older {f : Rank → Option TagMessage} (l : List Rank) (o : Option TagMessage) :
    (l.foldl (fun oldest q => older oldest (f q)) o = none ↔ o = none ∧ ∀ q ∈ l, f q = none) ∧
    ∀ m, l.foldl (fun oldest q => older oldest (f q)) o = some m →
      (∀ x, o = some x → m.arrival ≤ x.arrival) ∧
      ∀ q ∈ l, ∀ x, f q = some x → m.arrival ≤ x.arrival := by
  induction l generalizing o with
  | nil =>
      refine ⟨by simp, fun m hm => ⟨fun x hx => ?_, by simp⟩⟩
      have ho : o = some m := hm
      rw [ho] at hx
      cases hx
      exact Nat.le_refl _
  | cons q l ih =>
      obtain ⟨hnone, hsome⟩ := ih (older o (f q))
      constructor
      · rw [List.foldl_cons, hnone, older_none_iff]
        simp [and_assoc]
      · intro m hm
        obtain ⟨hfirst, hrest⟩ := hsome m hm
        cases hold : older o (f q) with
        | none =>
            obtain ⟨ho, hq⟩ := older_none_iff.mp hold
            refine ⟨fun x hx => (by simp [ho] at hx), fun p hp x hx => ?_⟩
            rcases List.mem_cons.mp hp with rfl | hp
            · rw [hq] at hx
              cases hx
            · exact hrest p hp x hx
        | some y =>
            obtain ⟨ho, hq⟩ := older_le hold
            have hmy := hfirst y hold
            refine ⟨fun x hx => hmy.trans (ho x hx), fun p hp x hx => ?_⟩
            rcases List.mem_cons.mp hp with rfl | hp
            · exact hmy.trans (hq x hx)
            · exact hrest p hp x hx

theorem oldest_waiting_eq_none_iff :
    oldestWaiting i st = none ↔ ∀ q < i.nranks, waitingIn (st.incomingMessages q) = 0 := by
  have hfold := (fold_older (f := fun q =>
    (st.incomingMessages q).find? TagMessage.isAwaitingBuffer) (List.range i.nranks) none).1
  rw [oldestWaiting, hfold]
  simp [waitingIn, List.find?_eq_none, List.countP_eq_zero]

/-- The message that is found arrived first of all that wait. -/
theorem oldest_waiting_le (hqueue : ∀ q, Queue q st.nextArrival (st.incomingMessages q))
    (hm : oldestWaiting i st = some m) {q : Rank} (hq : q < i.nranks) {x : TagMessage}
    (hx : x ∈ waiting (st.incomingMessages q)) : m.arrival ≤ x.arrival := by
  have hfold := ((fold_older (f := fun q =>
    (st.incomingMessages q).find? TagMessage.isAwaitingBuffer) (List.range i.nranks) none).2 m hm).2
    q (List.mem_range.mpr hq)
  obtain ⟨hmem, hwait⟩ := List.mem_filter.mp hx
  obtain ⟨y, hy⟩ := Option.isSome_iff_exists.mp (List.find?_isSome.mpr ⟨x, hmem, hwait⟩)
  refine (hfold y hy).trans ?_
  -- `y` is the first message of this peer that waits
  obtain ⟨-, pre, post, hsplit, hpre⟩ := List.find?_eq_some_iff_append.mp hy
  have harrival := (hqueue q).arrival
  rw [hsplit] at hmem harrival
  rcases List.mem_append.mp hmem with hmem | hmem
  · have hnot := hpre x hmem
    rw [hwait] at hnot
    cases hnot
  · rcases List.mem_cons.mp hmem with rfl | hmem
    · exact Nat.le_refl _
    · exact ((List.pairwise_cons.mp (List.pairwise_append.mp harrival).2.1).1 x hmem).le

end Oldest

/-! ## The accounts -/

/-- What the two counters and the stall timer say of the messages that wait for a buffer. -/
structure Accounts (n : Nat) (st : TagExchange) : Prop where
  count : ∀ q, st.numAwaitingBuffer q = waitingIn (st.incomingMessages q)
  total : st.totalAwaitingBuffer = ∑ q ∈ Finset.range n, st.numAwaitingBuffer q
  stall : st.allocationStallStart.isSome = true ↔ 0 < st.totalAwaitingBuffer
  queue : ∀ q, Queue q st.nextArrival (st.incomingMessages q)

/-- The bookkeeping of `try_attach_receive_buffer` for a message of the peer `p`. -/
def TagExchange.bufferAttached (p : Rank) (now : Nat) (st : TagExchange) : TagExchange :=
  { st with
    numAwaitingBuffer := Function.update st.numAwaitingBuffer p (st.numAwaitingBuffer p - 1)
    totalAwaitingBuffer := st.totalAwaitingBuffer - 1
    allocationStallStart := if 0 < st.totalAwaitingBuffer - 1 then some now else none }

/-- The messages of the peer `q` are `ms`. -/
def TagExchange.withIncoming (q : Rank) (ms : List TagMessage) (st : TagExchange) : TagExchange :=
  { st with incomingMessages := Function.update st.incomingMessages q ms }

section Accounts

variable {n q : Nat} {st : TagExchange} {ms : List TagMessage} {m : TagMessage}

theorem accounts_initial : Accounts n .initial where
  count _ := rfl
  total := by simp [TagExchange.initial]
  stall := by simp [TagExchange.initial]
  queue _ := .nil

theorem sum_update {f : Rank → Nat} (hq : q < n) (v : Nat) :
    (∑ p ∈ Finset.range n, Function.update f q v p) + f q = ∑ p ∈ Finset.range n, f p + v := by
  have hmem : q ∈ Finset.range n := Finset.mem_range.mpr hq
  rw [Finset.sum_update_of_mem hmem, Finset.sum_eq_add_sum_sdiff_singleton_of_mem hmem f]
  omega

theorem update_all {α : Type} {P : Rank → α → Prop} {f : Rank → α} {a : α}
    (hf : ∀ p, P p (f p)) (ha : P q a) (p : Rank) : P p (Function.update f q a p) := by
  rcases eq_or_ne p q with rfl | hne
  · rwa [Function.update_self]
  · rw [Function.update_of_ne hne]
    exact hf p

/-- The messages of a peer are replaced by others of which as many wait. -/
theorem Accounts.withIncoming (ha : Accounts n st)
    (hcount : waitingIn ms = waitingIn (st.incomingMessages q))
    (hqueue : Queue q st.nextArrival ms) : Accounts n (st.withIncoming q ms) where
  count p := by
    show st.numAwaitingBuffer p = waitingIn (Function.update st.incomingMessages q ms p)
    rcases eq_or_ne p q with rfl | hne
    · rw [Function.update_self, hcount]
      exact ha.count p
    · rw [Function.update_of_ne hne]
      exact ha.count p
  total := ha.total
  stall := ha.stall
  queue := update_all (P := fun p => Queue p st.nextArrival) ha.queue hqueue

/-- A message of a peer gets its buffer. -/
theorem Accounts.attach (ha : Accounts n st) (now : Nat) (hq : q < n)
    (hcount : waitingIn ms + 1 = waitingIn (st.incomingMessages q))
    (hqueue : Queue q st.nextArrival ms) :
    Accounts n ((st.bufferAttached q now).withIncoming q ms) where
  count p := by
    show Function.update st.numAwaitingBuffer q (st.numAwaitingBuffer q - 1) p =
      waitingIn (Function.update st.incomingMessages q ms p)
    rcases eq_or_ne p q with rfl | hne
    · rw [Function.update_self, Function.update_self, ha.count p]
      omega
    · rw [Function.update_of_ne hne, Function.update_of_ne hne]
      exact ha.count p
  total := by
    show st.totalAwaitingBuffer - 1 = ∑ p ∈ Finset.range n,
      Function.update st.numAwaitingBuffer q (st.numAwaitingBuffer q - 1) p
    have hsum := sum_update (f := st.numAwaitingBuffer) hq (st.numAwaitingBuffer q - 1)
    have hone := ha.count q
    rw [ha.total]
    omega
  stall := by
    show (if 0 < st.totalAwaitingBuffer - 1 then some now else none).isSome = true ↔
      0 < st.totalAwaitingBuffer - 1
    split <;> simp_all
  queue := update_all (P := fun p => Queue p st.nextArrival) ha.queue hqueue

/-- A message arrives that does not wait for a buffer. -/
theorem Accounts.arrive (ha : Accounts n st) {stall : Option Nat}
    (hstall : stall.isSome = true ↔ 0 < st.totalAwaitingBuffer)
    (harrival : m.arrival = st.nextArrival) (hpeer : m.message.peerRank = q)
    (hm : m.isAwaitingBuffer = false)
    (hlast : waitingIn (st.incomingMessages q) = 0 ∨ m.expectedPayloadSize = 0) :
    Accounts n (({ st.countReceived q with allocationStallStart := stall }).enqueue q m) where
  count p := by
    show st.numAwaitingBuffer p =
      waitingIn (Function.update st.incomingMessages q (st.incomingMessages q ++ [m]) p)
    rcases eq_or_ne p q with rfl | hne
    · rw [Function.update_self, ha.count p]
      simp [waitingIn, hm]
    · rw [Function.update_of_ne hne]
      exact ha.count p
  total := ha.total
  stall := hstall
  queue := by
    refine update_all (P := fun p => Queue p (st.nextArrival + 1)) (fun p => (ha.queue p).succ) ?_
    exact (ha.queue q).snoc harrival hpeer (hlast.imp_right .inr)

/-- A message arrives that waits for a buffer. -/
theorem Accounts.arrive_waiting (ha : Accounts n st) (hq : q < n) {start : Nat}
    (harrival : m.arrival = st.nextArrival) (hpeer : m.message.peerRank = q)
    (hm : m.isAwaitingBuffer = true) :
    Accounts n (({ st.countReceived q with
      numAwaitingBuffer :=
        Function.update st.numAwaitingBuffer q (st.numAwaitingBuffer q + 1)
      totalAwaitingBuffer := st.totalAwaitingBuffer + 1
      allocationStallStart := some start }).enqueue q m) where
  count p := by
    show Function.update st.numAwaitingBuffer q (st.numAwaitingBuffer q + 1) p =
      waitingIn (Function.update st.incomingMessages q (st.incomingMessages q ++ [m]) p)
    rcases eq_or_ne p q with rfl | hne
    · rw [Function.update_self, Function.update_self, ha.count p]
      simp [waitingIn, hm]
    · rw [Function.update_of_ne hne, Function.update_of_ne hne]
      exact ha.count p
  total := by
    show st.totalAwaitingBuffer + 1 = ∑ p ∈ Finset.range n,
      Function.update st.numAwaitingBuffer q (st.numAwaitingBuffer q + 1) p
    have hsum := sum_update (f := st.numAwaitingBuffer) hq (st.numAwaitingBuffer q + 1)
    rw [ha.total]
    omega
  stall := by
    show (some start).isSome = true ↔ 0 < st.totalAwaitingBuffer + 1
    simp
  queue := by
    refine update_all (P := fun p => Queue p (st.nextArrival + 1)) (fun p => (ha.queue p).succ) ?_
    exact (ha.queue q).snoc harrival hpeer (.inr (.inl hm))

end Accounts

/-! ## The stall timer -/

/-- `allocation_stall_start_` after a part at the time `now`. When a message has got its buffer, it
is reset or restarted. -/
structure Restarts (now : Nat) (st st' : TagExchange) : Prop where
  kept : st'.allocationStallStart = st.allocationStallStart ∨
    st'.allocationStallStart = none ∨ st'.allocationStallStart = some now
  allocated : ∀ a, st'.Holds a → st.Holds a ∨
    st'.allocationStallStart = none ∨ st'.allocationStallStart = some now

section Restarts

variable {now q : Nat} {st st₁ st' : TagExchange} {m : TagMessage} {a : Nat}

theorem Restarts.refl (st : TagExchange) : Restarts now st st :=
  ⟨.inl rfl, fun _ h => .inl h⟩

theorem Restarts.trans (h : Restarts now st st₁) (h' : Restarts now st₁ st') :
    Restarts now st st' := by
  have hlater : st₁.allocationStallStart = none ∨ st₁.allocationStallStart = some now →
      st'.allocationStallStart = none ∨ st'.allocationStallStart = some now := by
    intro hfirst
    rcases h'.kept with hsame | hnew
    · rwa [hsame]
    · exact hnew
  refine ⟨?_, fun a ha => ?_⟩
  · rcases h'.kept with hsame | hnew
    · rw [hsame]
      exact h.kept
    · exact .inr hnew
  · rcases h'.allocated a ha with hold | hnew
    · exact (h.allocated a hold).imp_right hlater
    · exact .inr hnew

/-- The timer was reset or restarted. -/
theorem Restarts.of_new (h : st'.allocationStallStart = none ∨
    st'.allocationStallStart = some now) : Restarts now st st' :=
  ⟨.inr h, fun _ _ => .inr h⟩

/-- No message has got its buffer. -/
theorem Restarts.of_holds (hkept : st'.allocationStallStart = st.allocationStallStart ∨
    st'.allocationStallStart = none ∨ st'.allocationStallStart = some now)
    (hholds : ∀ a, st'.Holds a → st.Holds a) : Restarts now st st' :=
  ⟨hkept, fun a ha => .inl (hholds a ha)⟩

theorem buffer_attached_stall (p : Rank) (st : TagExchange) :
    (st.bufferAttached p now).allocationStallStart = none ∨
      (st.bufferAttached p now).allocationStallStart = some now := by
  show (if 0 < st.totalAwaitingBuffer - 1 then some now else none) = none ∨ _
  split
  · next h => exact .inr (if_pos h)
  · exact .inl rfl

/-- A message that arrives without a buffer does not hold one. -/
theorem holds_enqueue (hm : m.isAwaitingBuffer = true ∨ m.expectedPayloadSize = 0)
    (h : (st.enqueue q m).Holds a) : st.Holds a := by
  rcases h with ⟨p, x, hx, harrival, hsize, hwait⟩ | htransit
  · refine .inl ⟨p, x, ?_, harrival, hsize, hwait⟩
    have hmem : x ∈ Function.update st.incomingMessages q (st.incomingMessages q ++ [m]) p := hx
    rcases eq_or_ne p q with rfl | hne
    · rw [Function.update_self] at hmem
      refine (List.mem_append.mp hmem).resolve_right fun hlast => ?_
      cases List.mem_singleton.mp hlast
      rcases hm with hm | hm
      · rw [hm] at hwait
        cases hwait
      · omega
    · rwa [Function.update_of_ne hne] at hmem
  · exact .inr htransit

end Restarts

/-! ## Arrivals -/

variable {n : Nat} {i : Instance} {env : Env n}

theorem try_attach_filled {point : AllocationPoint} {mode : AllocationMode} {m m' : TagMessage}
    {st st' : TagExchange}
    (hok : tryAttachReceiveBuffer env point mode m st = .ok (some (m', st'))) :
    Filled m m' ∧ st' = st.bufferAttached m.message.peerRank env.now := by
  unfold tryAttachReceiveBuffer at hok
  split at hok
  · cases hok
  · next hwait =>
      have hwait' : m.isAwaitingBuffer = true := Decidable.not_not.mp hwait
      split at hok
      · split at hok <;> cases hok
      · cases hok
        refine ⟨⟨hwait', ?_, rfl, rfl, rfl, rfl⟩, rfl⟩
        simp [TagMessage.isAwaitingBuffer]

/-- For a message that waits, an allocation that may fail does not throw. -/
theorem try_attach_may_fail {point : AllocationPoint} {m : TagMessage} {st : TagExchange}
    {e : String} (hwait : m.isAwaitingBuffer = true) :
    tryAttachReceiveBuffer env point .mayFail m st ≠ .error e := by
  unfold tryAttachReceiveBuffer
  rw [if_neg (by simp [hwait])]
  split
  · rw [if_pos rfl]
    exact fun h => by cases h
  · exact fun h => by cases h

/-- `num_awaiting_buffer_[p]++` and `total_awaiting_buffer_++`. -/
def TagExchange.countWaiting (p : Rank) (st : TagExchange) : TagExchange :=
  { st with
    numAwaitingBuffer := Function.update st.numAwaitingBuffer p (st.numAwaitingBuffer p + 1)
    totalAwaitingBuffer := st.totalAwaitingBuffer + 1 }

/-- For a message that waits this does not fail. -/
theorem await_buffer_succeeds {m : TagMessage} {st : TagExchange} {e : String}
    (hwait : m.isAwaitingBuffer = true) : awaitBuffer env m st ≠ .error e := by
  intro hfail
  simp only [awaitBuffer, bind_eq_error] at hfail
  rcases hfail with hfirst | ⟨r, _, hlast⟩
  · split at hfirst
    · cases htry : tryAttachReceiveBuffer env .receiveMetadata .mayFail m
          (st.countWaiting m.message.peerRank) with
      | error e => exact try_attach_may_fail hwait htry
      | ok attached =>
          rw [show tryAttachReceiveBuffer env .receiveMetadata .mayFail m { st with
              numAwaitingBuffer := Function.update st.numAwaitingBuffer m.message.peerRank
                (st.numAwaitingBuffer m.message.peerRank + 1)
              totalAwaitingBuffer := st.totalAwaitingBuffer + 1 } = .ok attached from htry]
            at hfirst
          cases hfirst
    · cases hfirst
  · split at hlast <;> cases hlast

/-- A message that waits has the stall timer started. -/
theorem start_stall {m m' : TagMessage} {st st' : TagExchange} {now : Nat}
    (hwait : m.isAwaitingBuffer = true)
    (hok : (if m.isAwaitingBuffer ∧ st.allocationStallStart.isNone then
      pure (m, { st with allocationStallStart := some now })
      else pure (m, st) : Except String (TagMessage × TagExchange)) = .ok (m', st')) :
    m' = m ∧ ∃ start, (st.allocationStallStart = some start ∨ start = now) ∧
      st' = { st with allocationStallStart := some start } := by
  split at hok
  · cases hok
    exact ⟨rfl, now, .inr rfl, rfl⟩
  · next hset =>
      cases hok
      refine ⟨rfl, ?_⟩
      cases hstart : st.allocationStallStart with
      | none => exact absurd ⟨hwait, by rw [hstart]; rfl⟩ hset
      | some start => exact ⟨start, .inl rfl, by rw [← hstart]⟩

/-- A new message with a payload gets its buffer at once, when no message of its peer waits and the
allocation succeeds, or waits. -/
theorem await_buffer_cases {m m' : TagMessage} {st st' : TagExchange}
    (hwait : m.isAwaitingBuffer = true) (hok : awaitBuffer env m st = .ok (m', st')) :
    (st.numAwaitingBuffer m.message.peerRank = 0 ∧ Filled m m' ∧
      st' = (st.countWaiting m.message.peerRank).bufferAttached m.message.peerRank env.now) ∨
    (m' = m ∧ ∃ start, (st.allocationStallStart = some start ∨ start = env.now) ∧
      st' = { st.countWaiting m.message.peerRank with allocationStallStart := some start }) := by
  simp only [awaitBuffer, bind_eq_ok] at hok
  obtain ⟨⟨m₁, st₁⟩, hfirst, hlast⟩ := hok
  split at hfirst
  · next hone =>
      have hzero : st.numAwaitingBuffer m.message.peerRank = 0 := by
        rw [Function.update_self] at hone
        omega
      cases htry : tryAttachReceiveBuffer env .receiveMetadata .mayFail m
          (st.countWaiting m.message.peerRank) with
      | error e => exact absurd htry (try_attach_may_fail hwait)
      | ok attached =>
          rw [show tryAttachReceiveBuffer env .receiveMetadata .mayFail m { st with
              numAwaitingBuffer := Function.update st.numAwaitingBuffer m.message.peerRank
                (st.numAwaitingBuffer m.message.peerRank + 1)
              totalAwaitingBuffer := st.totalAwaitingBuffer + 1 } = .ok attached from htry]
            at hfirst
          cases attached with
          | none =>
              cases hfirst
              exact .inr (start_stall hwait hlast)
          | some pair =>
              cases hfirst
              obtain ⟨hf, rfl⟩ := try_attach_filled htry
              rw [if_neg (by simp [hf.filled])] at hlast
              cases hlast
              exact .inl ⟨hzero, hf, rfl⟩
  · cases hfirst
    exact .inr (start_stall hwait hlast)

theorem buffer_attached_at_once (p now : Nat) (st : TagExchange) :
    (st.countWaiting p).bufferAttached p now =
      { st with allocationStallStart :=
          if 0 < st.totalAwaitingBuffer then some now else none } := by
  simp [TagExchange.bufferAttached, TagExchange.countWaiting]

/-- One application message is received. -/
theorem arrival_accounts {q : Rank} (hq : q < n) {t : Trailer} {m : TagMessage}
    {st st₁ : TagExchange} (ha : Accounts n st)
    (hawait : (if 0 < t.payloadSize then
        awaitBuffer env (newTagMessage q t st.nextArrival) (st.countReceived q)
      else pure (newTagMessage q t st.nextArrival, st.countReceived q)) = .ok (m, st₁)) :
    Accounts n (st₁.enqueue q m) ∧ Restarts env.now st (st₁.enqueue q m) := by
  split at hawait
  · next hsize =>
      have hwait : (newTagMessage q t st.nextArrival).isAwaitingBuffer = true := by
        simp [newTagMessage, TagMessage.isAwaitingBuffer, hsize]
      rcases await_buffer_cases hwait hawait with
        ⟨hzero, hf, rfl⟩ | ⟨rfl, start, hstart, rfl⟩
      · -- the message has got its buffer
        have hnone : waitingIn (st.incomingMessages q) = 0 := (ha.count q).symm.trans hzero
        refine ⟨?_, .of_new (buffer_attached_stall q _)⟩
        rw [show (newTagMessage q t st.nextArrival).message.peerRank = q from rfl,
          buffer_attached_at_once]
        refine ha.arrive ?_ hf.arrival hf.peerRank hf.filled (.inl hnone)
        show (if 0 < st.totalAwaitingBuffer then some env.now else none).isSome = true ↔ _
        split <;> simp_all
      · refine ⟨ha.arrive_waiting hq rfl rfl hwait, .of_holds ?_ fun a h => ?_⟩
        · show some start = st.allocationStallStart ∨ some start = none ∨ some start = some env.now
          rcases hstart with hstart | rfl
          · exact .inl hstart.symm
          · exact .inr (.inr rfl)
        · exact holds_enqueue (.inl hwait) h
  · next hsize =>
      have hzero : (newTagMessage q t st.nextArrival).expectedPayloadSize = 0 :=
        Nat.eq_zero_of_not_pos hsize
      cases hawait
      refine ⟨ha.arrive ha.stall rfl rfl ?_ (.inr hzero), .of_holds (.inl rfl) fun a h => ?_⟩
      · rw [TagMessage.isAwaitingBuffer, hzero]
        rfl
      · exact holds_enqueue (.inr hzero) h

/-- The messages of one peer are received. -/
theorem receive_from_accounts {q : Rank} (hq : q < n) {arrived : Nat} {s s' : State}
    (hok : receiveFrom i env q arrived s = .ok s') (ha : Accounts n s.1) :
    Accounts n s'.1 ∧ Restarts env.now s.1 s'.1 := by
  induction arrived generalizing s with
  | zero =>
      cases hok
      exact ⟨ha, .refl _⟩
  | succ arrived ih =>
      obtain ⟨st, comm⟩ := s
      simp only [receiveFrom] at hok
      split at hok
      · cases hok
        exact ⟨ha, .refl _⟩
      · simp only [bind_eq_ok] at hok
        obtain ⟨t, _, hok⟩ := hok
        split at hok
        · cases hok
          exact ⟨⟨ha.count, ha.total, ha.stall, ha.queue⟩, .of_holds (.inl rfl) fun _ h => h⟩
        · obtain ⟨⟨m, st₁⟩, hawait, hok⟩ := bind_eq_ok.mp hok
          obtain ⟨hone, hfirst⟩ := arrival_accounts hq ha hawait
          obtain ⟨hlast, hrestarts⟩ := ih hok hone
          exact ⟨hlast, hfirst.trans hrestarts⟩

/-! ## Forced allocations -/

/-- The message for which `force_allocation_progress_if_stalled` asks for a buffer that it must
get. -/
def forced (i : Instance) (env : Env n) (st : TagExchange) : Option TagMessage :=
  if stalled i env st then
    (oldestWaiting i st).filter fun m => (env.alloc .forceProgress .mayFail m.arrival).isNone
  else none

theorem oldest_waiting_waits {st : TagExchange} {m : TagMessage}
    (hm : oldestWaiting i st = some m) : m.isAwaitingBuffer = true := by
  obtain ⟨q, -, hfind⟩ := oldest_waiting_find hm
  exact List.find?_some hfind

/-- The message `m` with a buffer that was forced. -/
def TagMessage.force (buffer : Buffer) (m : TagMessage) : TagMessage :=
  { m with message := { m.message with data := some buffer }, forcedAllocation := true }

/-- For this message the code asks with `MUST_SUCCEED`, and it gets the buffer. -/
theorem force_allocation_of_forced {st : TagExchange} {m : TagMessage} {buffer : Buffer}
    (hm : forced i env st = some m)
    (hbuffer : env.alloc .forceProgress .mustSucceed m.arrival = some buffer) :
    forceAllocationProgressIfStalled i env st =
      .ok (storeWaiting (m.force buffer) (st.bufferAttached m.message.peerRank env.now)) := by
  unfold forced at hm
  split at hm
  · next hstalled =>
      obtain ⟨hold, hfails⟩ := Option.filter_eq_some_iff.mp hm
      have hwait := oldest_waiting_waits hold
      have hfirst : tryAttachReceiveBuffer env .forceProgress .mayFail m st = .ok none := by
        unfold tryAttachReceiveBuffer
        rw [if_neg (by simp [hwait]), Option.isNone_iff_eq_none.mp hfails]
        rfl
      have hsecond : tryAttachReceiveBuffer env .forceProgress .mustSucceed m st =
          .ok (some ({ m with message := { m.message with data := some buffer } },
            st.bufferAttached m.message.peerRank env.now)) := by
        unfold tryAttachReceiveBuffer
        rw [if_neg (by simp [hwait]), hbuffer]
        rfl
      unfold forceAllocationProgressIfStalled
      rw [if_neg (by simp [hstalled]), hold]
      simp only [hfirst, hsecond]
      rfl
  · cases hm

/-- The surroundings with other answers to the requests that must succeed. -/
def Env.granting (env : Env n) (granted : AllocationPoint → Nat → Option Buffer) : Env n :=
  { env with
    alloc := fun point mode a =>
      if mode = .mustSucceed then granted point a else env.alloc point mode a }

section Granting

variable {granted : AllocationPoint → Nat → Option Buffer}

/-- Without such a message the code does not ask with `MUST_SUCCEED`: what that would give makes no
difference. -/
theorem force_allocation_unforced {st : TagExchange} (hnone : forced i env st = none) :
    forceAllocationProgressIfStalled i (env.granting granted) st =
      forceAllocationProgressIfStalled i env st := by
  have hsame : stalled i (env.granting granted) st = stalled i env st := rfl
  have htry : ∀ m, tryAttachReceiveBuffer (env.granting granted) .forceProgress .mayFail m st =
      tryAttachReceiveBuffer env .forceProgress .mayFail m st := fun m => rfl
  unfold forceAllocationProgressIfStalled
  rw [hsame]
  by_cases hstalled : stalled i env st = true
  · rw [if_neg (by simp [hstalled]), if_neg (by simp [hstalled])]
    cases hold : oldestWaiting i st with
    | none => rfl
    | some m =>
        unfold forced at hnone
        rw [if_pos hstalled, hold, Option.filter_eq_none_iff] at hnone
        have hsome := hnone m rfl
        dsimp only
        rw [htry]
        cases hfirst : tryAttachReceiveBuffer env .forceProgress .mayFail m st with
        | error e => rfl
        | ok attached =>
            cases attached with
            | some pair => rfl
            | none =>
                unfold tryAttachReceiveBuffer at hfirst
                rw [if_neg (by simp [oldest_waiting_waits hold])] at hfirst
                split at hfirst
                · next hfails => simp [hfails] at hsome
                · cases hfirst
  · rw [if_pos hstalled, if_pos hstalled]

theorem receive_from_granting (q : Rank) (arrived : Nat) (s : State) :
    receiveFrom i (env.granting granted) q arrived s = receiveFrom i env q arrived s := by
  induction arrived generalizing s with
  | zero => rfl
  | succ arrived ih =>
      unfold receiveFrom
      simp only [ih]
      rfl

theorem setup_rank_granting (q : Rank) (ms : List TagMessage) (s : State) :
    setupRank i (env.granting granted) q ms s = setupRank i env q ms s := by
  induction ms with
  | nil => rfl
  | cons m rest ih =>
      unfold setupRank
      simp only [ih]
      rfl

theorem complete_rank_granting (comm : Comm) (ms : List TagMessage)
    (futures : List (Nat × Future)) :
    completeRank i (env.granting granted) comm ms futures =
      completeRank i env comm ms futures := by
  induction ms generalizing futures with
  | nil => rfl
  | cons m rest ih =>
      unfold completeRank
      simp only [ih]
      rfl

/-- No other part asks with `MUST_SUCCEED`. -/
theorem part_granting {p : Part n} {s : State} (hforce : p = .force → forced i env s.1 = none) :
    part i (env.granting granted) p s = part i env p s := by
  cases p with
  | receive q =>
      simp only [part, receive_from_granting]
      rfl
  | force => simp only [part, force_allocation_unforced (hforce rfl)]
  | setup q => simp only [part, setupSource, setup_rank_granting]
  | complete q => simp only [part, completeSource, complete_rank_granting]
  | cleanup => rfl

end Granting

/-- A buffer is attached to the first message of its peer that waits. -/
theorem store_waiting_accounts {st st' : TagExchange} {m m' : TagMessage} {q now : Nat}
    (ha : Accounts n st) (hq : q < n)
    (hfind : (st.incomingMessages q).find? TagMessage.isAwaitingBuffer = some m)
    (hf : Filled m m') (hst : st' = st.bufferAttached m.message.peerRank now) :
    Accounts n (storeWaiting m' st') ∧ Restarts now st (storeWaiting m' st') := by
  have hpeer : m.message.peerRank = q := (ha.queue q).peerRank m (List.mem_of_find?_eq_some hfind)
  obtain ⟨hqueue, hcount⟩ := (ha.queue q).replace hfind hf
  rw [hpeer] at hst
  subst hst
  have hstore : storeWaiting m' (st.bufferAttached q now) =
      (st.bufferAttached q now).withIncoming q (replaceWaiting m' (st.incomingMessages q)) := by
    unfold storeWaiting TagExchange.withIncoming
    rw [hf.peerRank.trans hpeer]
    rfl
  rw [hstore]
  exact ⟨ha.attach now hq hcount hqueue, .of_new (buffer_attached_stall q st)⟩

theorem force_allocation_accounts {st st' : TagExchange} (hn : n = i.nranks)
    (hok : forceAllocationProgressIfStalled i env st = .ok st') (ha : Accounts n st) :
    Accounts n st' ∧ Restarts env.now st st' := by
  unfold forceAllocationProgressIfStalled at hok
  split at hok
  · cases hok
    exact ⟨ha, .refl _⟩
  · simp only [bind, Except.bind] at hok
    split at hok
    · cases hok
    · next oldest hold =>
        obtain ⟨q, hq, hfind⟩ := oldest_waiting_find hold
        split at hok
        · cases hok
        · next res htry =>
            cases res with
            | some pair =>
                cases hok
                obtain ⟨hf, hst⟩ := try_attach_filled htry
                exact store_waiting_accounts ha (hn ▸ hq) hfind hf hst
            | none =>
                dsimp only at hok
                split at hok
                · cases hok
                · next res' htry' =>
                    cases res' with
                    | none =>
                        cases hok
                        exact ⟨ha, .refl _⟩
                    | some pair =>
                        cases hok
                        obtain ⟨hf, hst⟩ := try_attach_filled htry'
                        exact store_waiting_accounts ha (hn ▸ hq) hfind
                          ⟨hf.waiting, hf.filled, hf.size, hf.id, hf.arrival, hf.peerRank⟩ hst

/-- A forced allocation fails only when the allocator does what it must not. -/
theorem force_allocation_error {st : TagExchange} {e : String} (hn : n = i.nranks)
    (ha : Accounts n st) (hfail : forceAllocationProgressIfStalled i env st = .error e) :
    e = "receive buffer allocator returned nullptr although it must succeed" := by
  unfold forceAllocationProgressIfStalled at hfail
  split at hfail
  · cases hfail
  · next hstalled =>
      have hstalled : stalled i env st = true := Decidable.not_not.mp hstalled
      simp only [bind, Except.bind] at hfail
      split at hfail
      · next hnone =>
          -- the timer runs, so some message waits
          have hzero := oldest_waiting_eq_none_iff.mp hnone
          have hset : st.allocationStallStart.isSome = true := by
            unfold stalled at hstalled
            split at hstalled
            · cases hstalled
            · next hstart => rw [hstart]; rfl
          have htotal := ha.stall.mp hset
          rw [ha.total, Finset.sum_eq_zero fun q hq => ?_] at htotal
          · cases htotal
          · rw [ha.count q]
            exact hzero q (hn ▸ Finset.mem_range.mp hq)
      · next oldest hold =>
          have hwait := oldest_waiting_waits hold
          split at hfail
          · next htry => exact absurd htry (try_attach_may_fail hwait)
          · next res htry =>
              cases res with
              | some pair => cases hfail
              | none =>
                  dsimp only at hfail
                  split at hfail
                  · next htry' =>
                      cases hfail
                      unfold tryAttachReceiveBuffer at htry'
                      rw [if_neg (by simp [hwait])] at htry'
                      split at htry'
                      · cases htry'
                        rfl
                      · cases htry'
                  · next res' htry' => cases res' <;> cases hfail

/-! ## Setting up receives -/

/-- What the loop of `setup_data_receives` over the messages of the source `q` does. -/
inductive SetUp (i : Instance) (env : Env n) (q : Rank) :
    State → List TagMessage → List TagMessage → State → Prop where
  | stop {s ms} : SetUp i env q s ms ms s
  | pass {s s' m rest left} : m.expectedPayloadSize = 0 → SetUp i env q s rest left s' →
      SetUp i env q s (m :: rest) left s'
  | attach {s m m' rest} : Filled m m' →
      SetUp i env q s (m :: rest) (m' :: rest)
        (s.1.bufferAttached m.message.peerRank env.now, s.2)
  | post {s s' m rest} : 0 < m.expectedPayloadSize → m.isAwaitingBuffer = false →
      postReceive i q m s = .ok s' → SetUp i env q s (m :: rest) rest s'
  | attachPost {s s' m m' rest} : Filled m m' →
      postReceive i q m' (s.1.bufferAttached m.message.peerRank env.now, s.2) = .ok s' →
      SetUp i env q s (m :: rest) rest s'

section SetUp

variable {q : Rank} {ms left : List TagMessage} {m : TagMessage} {s s' : State} {e : String}

theorem setup_rank_cases {completed : List Message}
    (hok : setupRank i env q ms s = .ok (completed, left, s')) : SetUp i env q s ms left s' := by
  induction ms generalizing completed with
  | nil =>
      cases hok
      exact .stop
  | cons m rest ih =>
      simp only [setupRank] at hok
      split at hok
      · next hsize =>
          obtain ⟨attached, hatt, hok⟩ := bind_eq_ok.mp hok
          cases attached with
          | none =>
              cases hok
              exact .stop
          | some pair =>
              obtain ⟨m', st⟩ := pair
              dsimp only at hok
              split at hatt
              · obtain ⟨hf, rfl⟩ := try_attach_filled hatt
                split at hok
                · cases hok
                  exact .attach hf
                · obtain ⟨t, hpost, hok⟩ := bind_eq_ok.mp hok
                  cases hok
                  exact .attachPost hf hpost
              · next hwait =>
                  cases hatt
                  split at hok
                  · cases hok
                    exact .stop
                  · obtain ⟨t, hpost, hok⟩ := bind_eq_ok.mp hok
                    cases hok
                    exact .post hsize (by simpa using hwait) hpost
      · next hsize =>
          split at hok
          · obtain ⟨⟨completed', left', t⟩, hrest, hok⟩ := bind_eq_ok.mp hok
            cases hok
            exact .pass (Nat.eq_zero_of_not_pos hsize) (ih hrest)
          · cases hok
            exact .stop

theorem post_receive_eq (hok : postReceive i q m s = .ok s') :
    ∃ future, s'.1 = { s.1 with
      inTransitFutures := s.1.inTransitFutures ++ [(m.messageId, future)]
      inTransitMessages := Function.update s.1.inTransitMessages q
        (s.1.inTransitMessages q ++ [{ m with message := { m.message with data := none } }]) } := by
  unfold postReceive at hok
  split at hok
  · cases hok
  · dsimp only at hok
    split at hok
    · cases hok
    · cases hok
      exact ⟨_, rfl⟩

theorem post_receive_error (hfail : postReceive i q m s = .error e) :
    e = "recv buffer cannot be null" ∨ m.messageId ∈ s.1.keys := by
  unfold postReceive at hfail
  split at hfail
  · cases hfail
    exact .inl rfl
  · dsimp only at hfail
    split at hfail
    · next hposted => exact .inr (lookup_isSome_iff_mem.mp hposted)
    · cases hfail

theorem setup_rank_error (hfail : setupRank i env q ms s = .error e) :
    e = "recv buffer cannot be null" ∨ ∃ m ∈ ms, m.messageId ∈ s.1.keys := by
  induction ms with
  | nil => cases hfail
  | cons m rest ih =>
      simp only [setupRank] at hfail
      split at hfail
      · rcases bind_eq_error.mp hfail with hatt | ⟨attached, hatt, hrest⟩
        · split at hatt
          · next hwait => exact absurd hatt (try_attach_may_fail hwait)
          · cases hatt
        · cases attached with
          | none => cases hrest
          | some pair =>
              obtain ⟨m', st⟩ := pair
              -- attaching a buffer leaves the ids alone
              have hsame : m'.messageId = m.messageId ∧ st.keys = s.1.keys := by
                split at hatt
                · obtain ⟨hf, rfl⟩ := try_attach_filled hatt
                  exact ⟨hf.id, rfl⟩
                · cases hatt
                  exact ⟨rfl, rfl⟩
              dsimp only at hrest
              split at hrest
              · cases hrest
              · rcases bind_eq_error.mp hrest with hpost | ⟨t, _, hlast⟩
                · refine (post_receive_error hpost).imp_right fun hkey =>
                    ⟨m, List.mem_cons_self, ?_⟩
                  rwa [hsame.1, show (st, s.2).1.keys = s.1.keys from hsame.2] at hkey
                · cases hlast
      · split at hfail
        · rcases bind_eq_error.mp hfail with hrest | ⟨r, _, hlast⟩
          · refine (ih hrest).imp_right ?_
            rintro ⟨x, hx, hkey⟩
            exact ⟨x, List.mem_cons_of_mem m hx, hkey⟩
          · cases hlast
        · cases hfail

/-- Messages that hold a buffer are moved or dropped. -/
theorem holds_of_subset {st st' : TagExchange}
    (hincoming : ∀ p, ∀ m ∈ st'.incomingMessages p, m ∈ st.incomingMessages p)
    (htransit : ∀ p, ∀ m ∈ st'.inTransitMessages p, m ∈ st.inTransitMessages p ∨
      st.Holds m.arrival) {a : Nat} (h : st'.Holds a) : st.Holds a := by
  rcases h with ⟨p, m, hm, hholds⟩ | ⟨p, m, hm, rfl⟩
  · exact .inl ⟨p, m, hincoming p m hm, hholds⟩
  · exact (htransit p m hm).elim (fun hm => .inr ⟨p, m, hm, rfl⟩) id

theorem withIncoming_self (st : TagExchange) :
    st.withIncoming q (st.incomingMessages q) = st := by
  simp [TagExchange.withIncoming]

theorem withIncoming_withIncoming (st : TagExchange) (ms ms' : List TagMessage) :
    (st.withIncoming q ms).withIncoming q ms' = st.withIncoming q ms' := by
  simp [TagExchange.withIncoming]

theorem mem_withIncoming_tail {st : TagExchange} {p : Rank} {x : TagMessage}
    {rest : List TagMessage}
    (h : x ∈ (st.withIncoming q rest).incomingMessages p) :
    x ∈ (st.withIncoming q (m :: rest)).incomingMessages p := by
  have hx : x ∈ Function.update st.incomingMessages q rest p := h
  show x ∈ Function.update st.incomingMessages q (m :: rest) p
  rcases eq_or_ne p q with rfl | hne
  · rw [Function.update_self] at hx ⊢
    exact List.mem_cons_of_mem m hx
  · rwa [Function.update_of_ne hne] at hx ⊢

/-- The first message of the source leaves without having waited. -/
theorem Accounts.tail {st : TagExchange} {rest : List TagMessage}
    (ha : Accounts n (st.withIncoming q (m :: rest))) (hm : m.isAwaitingBuffer = false) :
    Accounts n (st.withIncoming q rest) := by
  have hself : (st.withIncoming q (m :: rest)).incomingMessages q = m :: rest :=
    Function.update_self _ _ _
  have hqueue := ha.queue q
  rw [hself] at hqueue
  rw [← withIncoming_withIncoming st (m :: rest) rest]
  refine ha.withIncoming ?_ (hqueue.sublist (List.sublist_cons_self m rest))
  rw [hself]
  simp [waitingIn, hm]

/-- The first message of the source gets its buffer. -/
theorem Accounts.attach_head {st : TagExchange} {m' : TagMessage} {rest : List TagMessage}
    (hq : q < n) (now : Nat) (ha : Accounts n (st.withIncoming q (m :: rest)))
    (hf : Filled m m') :
    m.message.peerRank = q ∧
      Accounts n ((st.bufferAttached q now).withIncoming q (m' :: rest)) := by
  have hself : (st.withIncoming q (m :: rest)).incomingMessages q = m :: rest :=
    Function.update_self _ _ _
  have hqueue := ha.queue q
  rw [hself] at hqueue
  have hfind : (m :: rest).find? TagMessage.isAwaitingBuffer = some m := by
    rw [List.find?_cons, hf.waiting]
  have hreplace : replaceWaiting m' (m :: rest) = m' :: rest := by
    rw [replaceWaiting, if_pos hf.waiting]
  obtain ⟨hqueue', hcount⟩ := hqueue.replace hfind hf
  rw [hreplace] at hqueue' hcount
  refine ⟨hqueue.peerRank m List.mem_cons_self, ?_⟩
  have hattach := ha.attach now hq (by rw [hself]; exact hcount) hqueue'
  have hsame : ((st.withIncoming q (m :: rest)).bufferAttached q now).withIncoming q
      (m' :: rest) = (st.bufferAttached q now).withIncoming q (m' :: rest) := by
    simp [TagExchange.withIncoming, TagExchange.bufferAttached]
  rwa [hsame] at hattach

/-- Posting a receive is not part of the accounts. -/
theorem Accounts.posted {rest : List TagMessage} (ha : Accounts n (s.1.withIncoming q rest))
    (hok : postReceive i q m s = .ok s') : Accounts n (s'.1.withIncoming q rest) := by
  obtain ⟨future, hpost⟩ := post_receive_eq hok
  rw [hpost]
  exact ⟨ha.count, ha.total, ha.stall, ha.queue⟩

theorem SetUp.accounts (hq : q < n) (h : SetUp i env q s ms left s')
    (ha : Accounts n (s.1.withIncoming q ms)) :
    Accounts n (s'.1.withIncoming q left) ∧
      Restarts env.now (s.1.withIncoming q ms) (s'.1.withIncoming q left) := by
  induction h with
  | stop => exact ⟨ha, .refl _⟩
  | @pass s' m rest left hzero _ ih =>
      have hm : m.isAwaitingBuffer = false := by
        rw [TagMessage.isAwaitingBuffer, hzero]
        rfl
      obtain ⟨hlast, hrestarts⟩ := ih (ha.tail hm)
      have hfirst : Restarts env.now (s.1.withIncoming q (m :: rest))
          (s.1.withIncoming q rest) :=
        .of_holds (.inl rfl) fun a =>
          holds_of_subset (fun p x hx => mem_withIncoming_tail hx) fun p x hx => .inl hx
      exact ⟨hlast, hfirst.trans hrestarts⟩
  | @attach m m' rest hf =>
      obtain ⟨hpeer, hattach⟩ := ha.attach_head hq env.now hf
      rw [hpeer]
      exact ⟨hattach, .of_new (buffer_attached_stall q s.1)⟩
  | @post s' m rest hsize hm hpost =>
      refine ⟨(ha.tail hm).posted hpost, ?_⟩
      obtain ⟨future, hs'⟩ := post_receive_eq hpost
      rw [hs']
      refine .of_holds (.inl rfl) fun a ha' => holds_of_subset (fun p x hx => ?_)
        (fun p x hx => ?_) ha'
      · have hx' : x ∈ (s.1.withIncoming q rest).incomingMessages p := hx
        exact mem_withIncoming_tail hx'
      have hx' : x ∈ Function.update s.1.inTransitMessages q (s.1.inTransitMessages q ++
        [{ m with message := { m.message with data := none } }]) p := hx
      rcases eq_or_ne p q with rfl | hne
      · rw [Function.update_self] at hx'
        rcases List.mem_append.mp hx' with hx' | hx'
        · exact .inl hx'
        · cases List.mem_singleton.mp hx'
          refine .inr (.inl ⟨p, m, ?_, rfl, hsize, hm⟩)
          show m ∈ Function.update s.1.incomingMessages p (m :: rest) p
          rw [Function.update_self]
          exact List.mem_cons_self
      · rw [Function.update_of_ne hne] at hx'
        exact .inl hx'
  | @attachPost s' m m' rest hf hpost =>
      obtain ⟨hpeer, hattach⟩ := ha.attach_head hq env.now hf
      rw [hpeer] at hpost
      refine ⟨(hattach.tail hf.filled).posted hpost, .of_new ?_⟩
      obtain ⟨future, hs'⟩ := post_receive_eq hpost
      rw [hs']
      exact buffer_attached_stall q s.1

theorem SetUp.owned (hq : q < n) (h : SetUp i env q s ms left s') (ho : Owned n s.1) :
    Owned n s'.1 := by
  have hpost : ∀ {m : TagMessage} {t t' : State}, Owned n t.1 → postReceive i q m t = .ok t' →
      Owned n t'.1 := by
    intro m t t' ht hok id hid
    obtain ⟨future, ht'⟩ := post_receive_eq hok
    rw [ht'] at hid ⊢
    simp only [TagExchange.keys, List.map_append, List.map_cons, List.map_nil, List.mem_append,
      List.mem_singleton] at hid
    rcases hid with hid | rfl
    · obtain ⟨p, hp, x, hx, hxid⟩ := ht id hid
      refine ⟨p, hp, x, ?_, hxid⟩
      show x ∈ Function.update t.1.inTransitMessages q _ p
      rcases eq_or_ne p q with rfl | hne
      · rw [Function.update_self]
        exact List.mem_append_left _ hx
      · rwa [Function.update_of_ne hne]
    · refine ⟨q, hq, { m with message := { m.message with data := none } }, ?_, rfl⟩
      show _ ∈ Function.update t.1.inTransitMessages q _ q
      rw [Function.update_self]
      exact List.mem_append_right _ List.mem_cons_self
  induction h with
  | stop => exact ho
  | pass _ _ ih => exact ih
  | attach _ => exact ho
  | post _ _ hok => exact hpost ho hok
  | attachPost _ hok => exact hpost (t := (s.1.bufferAttached _ env.now, s.2)) ho hok

end SetUp

/-! ## The parts -/

/-- The failures that the bookkeeping guards against. -/
def bookkeepingErrors : List String :=
  ["message is not waiting for a buffer", "no message is waiting for a buffer",
    "in transit future already exists"]

section Parts

variable {s s' : State} {e : String}

theorem SameTransit.owned {st st' : TagExchange} (h : SameTransit st st') (ho : Owned n st) :
    Owned n st' := by
  unfold Owned
  rw [h.keys, h.transit]
  exact ho

/-- The transfers of one source are completed. -/
theorem complete_source_accounts {q : Rank} {completed : List Message} {st st' : TagExchange}
    {comm : Comm} (hok : completeSource i env comm ([], st) q = .ok (completed, st'))
    (ha : Accounts n st) (ho : Owned n st) :
    Accounts n st' ∧ Owned n st' ∧ Restarts env.now st st' := by
  simp only [completeSource, bind_eq_ok] at hok
  obtain ⟨⟨done, left, futures⟩, hrank, hok⟩ := hok
  cases hok
  obtain ⟨rfl, -, rfl⟩ := complete_rank_spec hrank
  have hsplit := front_append_rest env st q
  have htransit : ∀ p, ∀ m ∈ Function.update st.inTransitMessages q (completedRest env st q) p,
      m ∈ st.inTransitMessages p := by
    intro p m hm
    rcases eq_or_ne p q with rfl | hne
    · rw [Function.update_self] at hm
      exact mem_of_mem_rest hm
    · rwa [Function.update_of_ne hne] at hm
  refine ⟨⟨ha.count, ha.total, ha.stall, ha.queue⟩, fun id hid => ?_,
    .of_holds (.inl rfl) fun a h => ?_⟩
  · obtain ⟨f, hf, rfl⟩ := List.mem_map.mp hid
    obtain ⟨hf, hkeep⟩ := List.mem_filter.mp hf
    rw [decide_eq_true_eq] at hkeep
    obtain ⟨p, hp, m, hm, hmid⟩ := ho f.1 (List.mem_map_of_mem hf)
    refine ⟨p, hp, m, ?_, hmid⟩
    show m ∈ Function.update st.inTransitMessages q (completedRest env st q) p
    rcases eq_or_ne p q with rfl | hne
    · rw [Function.update_self]
      rw [← hsplit] at hm
      refine (List.mem_append.mp hm).resolve_left fun hfront => hkeep ?_
      rw [← hmid]
      exact List.mem_map_of_mem hfront
    · rwa [Function.update_of_ne hne]
  · refine holds_of_subset (fun p m hm => ?_) (fun p m hm => ?_) h
    · exact hm
    · exact .inl (htransit p m hm)

theorem part_accounts (hn : n = i.nranks) {p : Part n} (hok : part i env p s = .ok s')
    (ha : Accounts n s.1) (ho : Owned n s.1) :
    Accounts n s'.1 ∧ Owned n s'.1 ∧ Restarts env.now s.1 s'.1 := by
  cases p with
  | receive peer =>
      have hcase : (if peer.val = i.rank ∨ peerDone s.1 peer then pure s
          else receiveFrom i env peer (env.arrived peer) s) = Except.ok s' := hok
      split at hcase
      · cases hcase
        exact ⟨ha, ho, .refl _⟩
      · obtain ⟨ha', hrestarts⟩ := receive_from_accounts peer.isLt hcase ha
        exact ⟨ha', (receive_from_same hcase).owned ho, hrestarts⟩
  | force =>
      obtain ⟨st, hforce, hok⟩ := bind_eq_ok.mp hok
      cases hok
      obtain ⟨ha', hrestarts⟩ := force_allocation_accounts hn hforce ha
      exact ⟨ha', (force_allocation_same hforce).owned ho, hrestarts⟩
  | setup src =>
      obtain ⟨⟨completed, t⟩, hsetup, hok⟩ := bind_eq_ok.mp hok
      cases hok
      simp only [setupSource, bind_eq_ok] at hsetup
      obtain ⟨⟨done, left, st, comm⟩, hrank, hsetup⟩ := hsetup
      cases hsetup
      have hset := setup_rank_cases hrank
      have hself : Accounts n (s.1.withIncoming src (s.1.incomingMessages src)) := by
        rwa [withIncoming_self]
      obtain ⟨ha', hrestarts⟩ := hset.accounts src.isLt hself
      rw [withIncoming_self] at hrestarts
      have hown : Owned n st := hset.owned src.isLt ho
      exact ⟨⟨ha'.count, ha'.total, ha'.stall, ha'.queue⟩, hown,
        ⟨hrestarts.kept, hrestarts.allocated⟩⟩
  | complete src =>
      obtain ⟨⟨completed, st⟩, hcomplete, hok⟩ := bind_eq_ok.mp hok
      cases hok
      obtain ⟨ha', ho', hrestarts⟩ := complete_source_accounts hcomplete ha ho
      exact ⟨⟨ha'.count, ha'.total, ha'.stall, ha'.queue⟩, ho',
        ⟨hrestarts.kept, hrestarts.allocated⟩⟩
  | cleanup =>
      cases hok
      exact ⟨⟨ha.count, ha.total, ha.stall, ha.queue⟩, ho, .of_holds (.inl rfl) fun _ h => h⟩

theorem receive_from_error {q : Rank} {arrived : Nat}
    (hfail : receiveFrom i env q arrived s = .error e) : e = "Truncated metadata" := by
  induction arrived generalizing s with
  | zero => cases hfail
  | succ arrived ih =>
      obtain ⟨st, comm⟩ := s
      simp only [receiveFrom] at hfail
      split at hfail
      · cases hfail
      · next msg comm' _ =>
          rcases bind_eq_error.mp hfail with hparse | ⟨t, _, hrest⟩
          · unfold parseMetadata at hparse
            split at hparse
            · cases hparse
              rfl
            · cases hparse
          · split at hrest
            · cases hrest
            · rcases bind_eq_error.mp hrest with hawait | ⟨r, _, hloop⟩
              · split at hawait
                · next hsize => exact absurd hawait (await_buffer_succeeds
                    (by simp [newTagMessage, TagMessage.isAwaitingBuffer, hsize]))
                · cases hawait
              · exact ih hloop

theorem complete_rank_error {comm : Comm} {msgs : List TagMessage}
    {futures : List (Nat × Future)} (hfail : completeRank i env comm msgs futures = .error e) :
    e = "in transit future not found" ∨ e = "future has no data" := by
  induction msgs generalizing futures with
  | nil => cases hfail
  | cons m rest ih =>
      simp only [completeRank] at hfail
      split at hfail
      · split at hfail
        · cases hfail
          exact .inl rfl
        · rcases bind_eq_error.mp hfail with hrelease | ⟨b, _, hrest⟩
          · unfold Comm.releaseData at hrelease
            split at hrelease
            · cases hrelease
              exact .inr rfl
            · cases hrelease
          · rcases bind_eq_error.mp hrest with hloop | ⟨r, _, hlast⟩
            · exact ih hloop
            · cases hlast
      · cases hfail

/-- A part does not fail with an error of the bookkeeping, when the ids of the messages that wait
are new. -/
theorem part_error (hn : n = i.nranks) {p : Part n} (ha : Accounts n s.1)
    (hfresh : ∀ q < n, ∀ m ∈ s.1.incomingMessages q, m.messageId ∉ s.1.keys)
    (hfail : part i env p s = .error e) : e ∉ bookkeepingErrors := by
  cases p with
  | receive peer =>
      have hcase : (if peer.val = i.rank ∨ peerDone s.1 peer then pure s
          else receiveFrom i env peer (env.arrived peer) s) = Except.error e := hfail
      split at hcase
      · cases hcase
      · rw [receive_from_error hcase]
        decide
  | force =>
      rcases bind_eq_error.mp hfail with hforce | ⟨st, _, hlast⟩
      · rw [force_allocation_error hn ha hforce]
        decide
      · cases hlast
  | setup src =>
      rcases bind_eq_error.mp hfail with hsetup | ⟨r, _, hlast⟩
      · rcases bind_eq_error.mp hsetup with hrank | ⟨r, _, hlast⟩
        · rcases setup_rank_error hrank with rfl | ⟨m, hm, hkey⟩
          · decide
          · exact absurd hkey (hfresh src src.isLt m hm)
        · cases hlast
      · cases hlast
  | complete src =>
      rcases bind_eq_error.mp hfail with hcomplete | ⟨r, _, hlast⟩
      · rcases bind_eq_error.mp hcomplete with hrank | ⟨r, _, hlast⟩
        · rcases complete_rank_error hrank with rfl | rfl <;> decide
        · cases hlast
      · cases hlast
  | cleanup => cases hfail

end Parts

/-! ## In every run -/

/-- The members that concern received messages are the same. -/
structure SameBuffers (st st' : TagExchange) : Prop where
  waiting : st'.numAwaitingBuffer = st.numAwaitingBuffer
  total : st'.totalAwaitingBuffer = st.totalAwaitingBuffer
  stall : st'.allocationStallStart = st.allocationStallStart
  arrival : st'.nextArrival = st.nextArrival
  incoming : st'.incomingMessages = st.incomingMessages
  transit : st'.inTransitMessages = st.inTransitMessages
  futures : st'.inTransitFutures = st.inTransitFutures

theorem SameBuffers.refl (st : TagExchange) : SameBuffers st st :=
  ⟨rfl, rfl, rfl, rfl, rfl, rfl, rfl⟩

theorem SameReceiver.buffers {st st' : TagExchange} (h : SameReceiver st st') :
    SameBuffers st st' := by
  obtain ⟨_, _, _, _, rfl⟩ := h
  exact ⟨rfl, rfl, rfl, rfl, rfl, rfl, rfl⟩

/-- What is kept of the exchange of one rank. `clock` and `allocated` are those of the rank. -/
structure KeptOne (n : Nat) (clock : Nat) (allocated : Option Nat) (st : TagExchange) : Prop where
  accounts : Accounts n st
  owned : Owned n st
  stamped : ∀ a, allocated = some a → a ≤ clock ∧ ∀ t, st.allocationStallStart = some t → a ≤ t

theorem KeptOne.same {st st' : TagExchange} {clock : Nat} {allocated : Option Nat}
    (h : KeptOne n clock allocated st) (hs : SameBuffers st st') :
    KeptOne n clock allocated st' := by
  obtain ⟨h1, h2, h3, h4, h5, h6, h7⟩ := hs
  refine ⟨⟨?_, ?_, ?_, ?_⟩, ?_, ?_⟩
  · rw [h1, h5]
    exact h.accounts.count
  · rw [h1, h2]
    exact h.accounts.total
  · rw [h2, h3]
    exact h.accounts.stall
  · rw [h4, h5]
    exact h.accounts.queue
  · unfold Owned TagExchange.keys
    rw [h6, h7]
    exact h.owned
  · rw [h3]
    exact h.stamped

theorem kept_one_initial (clock : Nat) : KeptOne n clock none .initial :=
  ⟨accounts_initial, fun id hid => absurd hid (by simp [TagExchange.keys, TagExchange.initial]),
    fun a ha => by cases ha⟩

/-- What every run keeps, with the events of all pairs of ranks. -/
structure Kept (c : Cluster) (h : Rank → Rank → List Event) (x : Between) : Prop where
  agrees : Agrees c h x.global
  numbered : AllNumbered c x.global
  one : ∀ r < c.nranks, KeptOne c.nranks (x.clock r) (x.allocated r) (x.global.exchange r)

section Runs

variable {c : Cluster} {h : Rank → Rank → List Event} {x x' : Between} {r : Rank}

/-- Calls other than `progress` and the construction of the next exchange leave the received
messages alone. -/
theorem call_buffers {call : Call c.nranks} {s s' : Global} (ha : Agrees c h s)
    (hr : r < c.nranks) (hfew : Few s') (hprogress : ∀ env, call ≠ .progress env)
    (hnext : call ≠ .next) (hok : c.call r call s = .ok s') (q : Rank) :
    SameBuffers (s.exchange q) (s'.exchange q) := by
  have hput : ∀ {y : State} (g : Global), SameBuffers (g.exchange r) y.1 →
      SameBuffers (g.exchange q) ((g.put r y).exchange q) := by
    intro y g hy
    show SameBuffers (g.exchange q) (Function.update g.exchange r y.1 q)
    rcases eq_or_ne q r with rfl | hne
    · rwa [Function.update_self]
    · rw [Function.update_of_ne hne]
      exact .refl _
  have hrank : r < 2 ^ 31 := hr.trans c.nranks_lt
  cases call with
  | send messages =>
      simp only [Cluster.call, bind_eq_ok, pure_eq_ok] at hok
      obtain ⟨y, hsend, rfl⟩ := hok
      have hbound := hfew.bounded r (s.number r)
      simp only [Global.logSent, Global.put, and_self, if_true] at hbound
      obtain ⟨_, _, _, hsame⟩ := send_keeps hrank (ha.sender r hr) hbound hsend
      exact hput (s.logSent r messages) hsame.buffers
  | finish =>
      simp only [Cluster.call, bind_eq_ok, pure_eq_ok] at hok
      obtain ⟨y, hfin, rfl⟩ := hok
      obtain ⟨_, _, _, hsame⟩ := finish_keeps (ha.sender r hr) (hfew.bounded r _) hfin
      exact hput s hsame.buffers
  | progress env => exact absurd rfl (hprogress env)
  | recv =>
      cases hok
      exact hput (s.logDelivered r _) ⟨rfl, rfl, rfl, rfl, rfl, rfl, rfl⟩
  | next => exact absurd rfl hnext

/-- A part of the rank `r` with the time at which it last allocated. -/
theorem KeptOne.part {env : Env c.nranks} {p : Part c.nranks} {y : State} {i : Instance}
    {s : State} {clock : Nat} {allocated allocated' : Option Nat} (hn : c.nranks = i.nranks)
    (hk : KeptOne c.nranks clock allocated s.1) (hclock : clock ≤ env.now)
    (hok : Exchange.part i env p s = .ok y)
    (hallocated : allocated' = allocated ∨
      allocated' = some env.now ∧ ∃ a, y.1.Holds a ∧ ¬ s.1.Holds a) :
    KeptOne c.nranks env.now allocated' y.1 := by
  obtain ⟨ha, ho, hrestarts⟩ := part_accounts hn hok hk.accounts hk.owned
  refine ⟨ha, ho, fun a hsome => ?_⟩
  rcases hallocated with rfl | ⟨rfl, k, hholds, hnot⟩
  · obtain ⟨hle, hstall⟩ := hk.stamped a hsome
    refine ⟨hle.trans hclock, fun t ht => ?_⟩
    rcases hrestarts.kept with hsame | hnone | hnow
    · exact hstall t (hsame ▸ ht)
    · rw [hnone] at ht
      cases ht
    · rw [hnow] at ht
      cases ht
      exact hle.trans hclock
  · cases hsome
    refine ⟨Nat.le_refl _, fun t ht => ?_⟩
    rcases (hrestarts.allocated k hholds).resolve_left hnot with hnone | hnow
    · rw [hnone] at ht
      cases ht
    · rw [hnow] at ht
      cases ht
      exact Nat.le_refl _

theorem moves_kept {move : Move c.nranks} (hk : Kept c h x) (hr : r < c.nranks)
    (hfew : Few x'.global) (hmove : c.Moves r x move x') : ∃ h', Kept c h' x' := by
  cases hmove with
  | @call call g hprogress hnext hok =>
      obtain ⟨h', ha'⟩ := call_inv hr ⟨h, hk.agrees⟩ hfew.bounded hok
      refine ⟨h', ha', call_numbered hk.agrees hr hfew.fits hprogress hok hk.numbered,
        fun q hq => ?_⟩
      exact (hk.one q hq).same (call_buffers hk.agrees hr hfew hprogress hnext hok q)
  | @next g hok =>
      obtain ⟨h', ha'⟩ := call_inv hr ⟨h, hk.agrees⟩ hfew.bounded hok
      refine ⟨h', ha', call_numbered hk.agrees hr hfew.fits (fun env => by simp) hok hk.numbered,
        fun q hq => ?_⟩
      have hg : g.exchange = Function.update x.global.exchange r .initial := by
        simp only [Cluster.call] at hok
        split at hok
        · cases hok
          rfl
        · cases hok
      show KeptOne c.nranks (x.clock q) (Function.update x.allocated r none q) (g.exchange q)
      rw [hg]
      rcases eq_or_ne q r with rfl | hne
      · rw [Function.update_self, Function.update_self]
        exact kept_one_initial _
      · rw [Function.update_of_ne hne, Function.update_of_ne hne]
        exact hk.one q hq
  | @part env p y hclock hok hsame =>
      refine ⟨h, hk.agrees.part hr hok, part_numbered hk.agrees hr hok hk.numbered, ?_⟩
      intro q hq
      show KeptOne c.nranks (Function.update x.clock r env.now q) (x.allocated q)
        (Function.update x.global.exchange r y.1 q)
      rcases eq_or_ne q r with rfl | hne
      · rw [Function.update_self, Function.update_self]
        exact (hk.one q hq).part rfl hclock hok (.inl rfl)
      · rw [Function.update_of_ne hne, Function.update_of_ne hne]
        exact hk.one q hq
  | @allocate env p y hclock hok hholds =>
      refine ⟨h, hk.agrees.part hr hok, part_numbered hk.agrees hr hok hk.numbered, ?_⟩
      intro q hq
      show KeptOne c.nranks (Function.update x.clock r env.now q)
        (Function.update x.allocated r (some env.now) q)
        (Function.update x.global.exchange r y.1 q)
      rcases eq_or_ne q r with rfl | hne
      · rw [Function.update_self, Function.update_self, Function.update_self]
        exact (hk.one q hq).part rfl hclock hok (.inr ⟨rfl, hholds⟩)
      · rw [Function.update_of_ne hne, Function.update_of_ne hne, Function.update_of_ne hne]
        exact hk.one q hq

/-- Moves only add to the number of messages sent. -/
theorem moves_sendCount_le {move : Move c.nranks} (hmove : c.Moves r x move x') (q k : Nat) :
    x.global.sendCount q k ≤ x'.global.sendCount q k := by
  cases hmove with
  | call _ _ hok => exact call_sendCount_le hok q k
  | next hok => exact call_sendCount_le hok q k
  | part _ _ _ => exact Nat.le_refl _
  | allocate _ _ _ => exact Nat.le_refl _

theorem kept_initial : ∃ h, Kept c h .initial := by
  obtain ⟨h, ha⟩ := init_inv c
  exact ⟨h, ha, all_numbered_initial, fun r _ => kept_one_initial _⟩

theorem reachable_kept (hx : c.between.Reachable x) (hfew : Few x.global) : ∃ h, Kept c h x := by
  refine hx.invariant (I := fun x => Few x.global → ∃ h, Kept c h x) ?_ ?_ hfew
  · rintro x rfl _
    exact kept_initial
  · rintro x ⟨r, move⟩ x' hi ⟨hr, hmove⟩ hfew'
    obtain ⟨h, hk⟩ := hi fun q k => (moves_sendCount_le hmove q k).trans_lt (hfew' q k)
    exact moves_kept hk hr hfew' hmove

/-- The bookkeeping of receive buffers in the exchange of the rank `r`. -/
structure Bookkeeping (c : Cluster) (x : Between) (r : Rank) : Prop where
  count : ∀ q < c.nranks, (x.global.exchange r).numAwaitingBuffer q =
    waitingIn ((x.global.exchange r).incomingMessages q)
  total : (x.global.exchange r).totalAwaitingBuffer =
    ∑ q ∈ Finset.range c.nranks, (x.global.exchange r).numAwaitingBuffer q
  stall : (x.global.exchange r).allocationStallStart.isSome = true ↔
    0 < (x.global.exchange r).totalAwaitingBuffer
  suffix : ∀ q < c.nranks, waiting ((x.global.exchange r).incomingMessages q) <:+
    withPayload ((x.global.exchange r).incomingMessages q)
  /-- A forced allocation gives `m` the buffer that it must get. -/
  forces : ∀ (env : Env c.nranks) (m : TagMessage) (buffer : Buffer),
    forced (c.current x.global r) env (x.global.exchange r) = some m →
    env.alloc .forceProgress .mustSucceed m.arrival = some buffer →
    part (c.current x.global r) env .force (x.global.exchange r, x.global.comm) =
      .ok (storeWaiting (m.force buffer)
        ((x.global.exchange r).bufferAttached m.message.peerRank env.now), x.global.comm)
  /-- No part but this forces an allocation: the answer to such a request makes no difference. -/
  unforced : ∀ (env : Env c.nranks) (granted : AllocationPoint → Nat → Option Buffer)
    (p : Part c.nranks),
    (p = .force → forced (c.current x.global r) env (x.global.exchange r) = none) →
    part (c.current x.global r) (env.granting granted) p (x.global.exchange r, x.global.comm) =
      part (c.current x.global r) env p (x.global.exchange r, x.global.comm)
  /-- A forced allocation is for the message that arrived first of all that wait. -/
  oldest : ∀ (env : Env c.nranks) (m : TagMessage),
    forced (c.current x.global r) env (x.global.exchange r) = some m →
    ∀ q < c.nranks, ∀ m' ∈ waiting ((x.global.exchange r).incomingMessages q),
      m.arrival ≤ m'.arrival
  /-- It is made when no message has got a buffer for the allocation timeout. -/
  once : ∀ (env : Env c.nranks) (m : TagMessage), x.clock r ≤ env.now →
    forced (c.current x.global r) env (x.global.exchange r) = some m →
    ∀ a, x.allocated r = some a → a + c.allocationTimeout ≤ env.now
  /-- A `progress` call that succeeds is a run of parts, so all this holds after it too. -/
  progress_reachable : ∀ (env : Env c.nranks) (y : State), x.clock r ≤ env.now →
    progress (c.current x.global r) env (x.global.exchange r, x.global.comm) = .ok y →
    ∃ x', c.between.Reachable x' ∧ x'.global = x.global.put r y
  /-- No part of `progress` fails with an error of the bookkeeping. -/
  part_error : ∀ (env : Env c.nranks) (p : Part c.nranks) (e : String),
    part (c.current x.global r) env p (x.global.exchange r, x.global.comm) = .error e →
    e ∉ bookkeepingErrors
  /-- Nor does a whole call. -/
  progress_error : ∀ (env : Env c.nranks) (e : String), x.clock r ≤ env.now →
    progress (c.current x.global r) env (x.global.exchange r, x.global.comm) = .error e →
    e ∉ bookkeepingErrors

theorem Kept.part_error (hk : Kept c h x) (hfew : Few x.global) (hr : r < c.nranks)
    {env : Env c.nranks} {p : Part c.nranks} {e : String}
    (hfail : part (c.current x.global r) env p (x.global.exchange r, x.global.comm) = .error e) :
    e ∉ bookkeepingErrors := by
  have hone := hk.one r hr
  refine Exchange.part_error (s := (x.global.exchange r, x.global.comm)) rfl hone.accounts ?_ hfail
  exact fun q hq m hm => hk.agrees.fresh hk.numbered hfew hr hone.owned hq hm

theorem oldest_of_forced {i : Instance} {env : Env i.nranks} {st : TagExchange} {m : TagMessage}
    (hm : forced i env st = some m) : stalled i env st = true ∧ oldestWaiting i st = some m := by
  unfold forced at hm
  split at hm
  · next hstalled => exact ⟨hstalled, (Option.filter_eq_some_iff.mp hm).1⟩
  · cases hm

/-- Between any two parts of `progress` calls, the receive buffers of every rank are accounted
for, as long as no rank sends `2 ^ 32` messages through one exchange. -/
theorem bookkeeping_kept (hx : c.between.Reachable x) (hfew : Few x.global)
    (hr : r < c.nranks) : Bookkeeping c x r := by
  obtain ⟨h, hk⟩ := reachable_kept hx hfew
  obtain ⟨haccounts, -, hstamped⟩ := hk.one r hr
  constructor
  case count => exact fun q _ => haccounts.count q
  case total => exact haccounts.total
  case stall => exact haccounts.stall
  case suffix => exact fun q _ => (haccounts.queue q).suffix
  case forces =>
    intro env m buffer hm hbuffer
    simp only [part, force_allocation_of_forced hm hbuffer]
    rfl
  case unforced => exact fun env granted p hforce => part_granting hforce
  case oldest =>
    intro env m hm q hq m' hm'
    exact oldest_waiting_le haccounts.queue (oldest_of_forced hm).2 hq hm'
  case once =>
    intro env m hclock hm a hallocated
    obtain ⟨hle, hstall⟩ := hstamped a hallocated
    have hstalled := (oldest_of_forced hm).1
    unfold stalled at hstalled
    split at hstalled
    · cases hstalled
    · next start hstart =>
        rw [decide_eq_true_eq] at hstalled
        have hstart := hstall start hstart
        have htimeout : c.allocationTimeout ≤ env.now - start := hstalled
        omega
  case progress_reachable =>
    intro env y hclock hok
    obtain ⟨x', hx', hglobal, -⟩ := reachable_progress hx hr hclock hok
    exact ⟨x', hx', hglobal⟩
  case part_error => exact fun env p e hfail => hk.part_error hfew hr hfail
  case progress_error =>
    intro env e hclock hfail
    obtain ⟨x', p, hx', hcount, hpart⟩ := exists_failing_part hx hr hclock hfail
    have hfew' : Few x'.global := by
      unfold Few
      rw [hcount]
      exact hfew
    obtain ⟨h', hk'⟩ := reachable_kept hx' hfew'
    exact hk'.part_error hfew' hr hpart

end Runs

/-- The first message of rank 0 has arrived, and no allocation that may fail succeeds. -/
def scarce : Env 2 where
  arrived _ := 1
  alloc _ mode _ := if mode = .mustSucceed then some (.empty .host) else none
  writeDone _ := true
  now := 7
  incomingOrder := [0, 1]
  reported := []
  transitOrder := [0, 1]
  movedToDisk _ := false
  sendsCompleted := 0
  incoming_perm := zero_one_perm
  transit_perm := zero_one_perm

/-- A message of rank 0 waits at rank 1, and the next `progress` forces its allocation. -/
theorem bookkeeping_kept_two : ∃ x m, two.between.Reachable x ∧ Few x.global ∧
    (x.global.exchange 1).totalAwaitingBuffer = 1 ∧
    forced (two.current x.global 1) scarce (x.global.exchange 1) = some m ∧
    scarce.alloc .forceProgress .mustSucceed m.arrival = some (.empty .host) ∧
    Bookkeeping two x 1 := by
  have hrun : ∃ g y m, two.call 0 (.send [lost]) .initial = .ok g ∧
      part (two.current g 1) scarce (.receive 0) (g.exchange 1, g.comm) = .ok y ∧
      y.1.totalAwaitingBuffer = 1 ∧ forced (two.current g 1) scarce y.1 = some m :=
    ⟨_, _, _, rfl, rfl, rfl, rfl⟩
  obtain ⟨g, y, m, hsend, hpart, htotal, hforced⟩ := hrun
  have hmoves : two.Moves 0 .initial (.call (.send [lost])) { Between.initial with global := g } :=
    .call (fun env => by simp) (by simp) hsend
  have hsent : two.between.Reachable { Between.initial with global := g } :=
    (System.Reachable.of_init rfl).next (l := (0, .call (.send [lost]))) ⟨by decide, hmoves⟩
  have hclock : Between.initial.clock 1 ≤ scarce.now := Nat.zero_le _
  obtain ⟨x, hmove, hglobal, -⟩ := exists_moves
    (c := two) (x := { Between.initial with global := g }) (r := 1) hclock hpart
  have hx : two.between.Reachable x :=
    hsent.next (l := (1, .part scarce (.receive (0 : Fin 2)))) ⟨by decide, hmove⟩
  have hfew : Few x.global := by
    intro q k
    have hcount := call_sendCount_le_add hsend q k
    rw [hglobal]
    show g.sendCount q k < 2 ^ 32
    exact (hcount.trans (Nat.le_refl 1)).trans_lt (by norm_num)
  have hone : x.global.exchange 1 = y.1 := by rw [hglobal, Global.exchange_put]
  refine ⟨x, m, hx, hfew, ?_, ?_, rfl, bookkeeping_kept hx hfew (by decide)⟩
  · rw [hone]
    exact htotal
  · rw [hone, hglobal]
    exact hforced

end Rapidsmpf.Exchange
