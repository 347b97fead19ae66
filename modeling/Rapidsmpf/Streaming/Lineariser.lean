import Mathlib
import Rapidsmpf.Lib.Transition
import Rapidsmpf.Streaming.Outlet

/-!
# The lineariser

`streaming/core/lineariser.hpp` and the `BoundedQueue` of `streaming/core/queue.hpp`. Each producer
has a queue of its own. It acquires a ticket of the queue's semaphore for a message and sends the
message with it; `Lineariser::drain` receives from the queues in turn, forwards what it received to
the output channel, and only then releases the ticket. A queue that yields nothing any more is
removed from `queues_` at the end of the round. When the output channel refuses a message, or no
queue is left, the remaining queues are shut down and the output channel is drained.

The queue is libcoro's: it is first in, first out and not bounded, and a shutdown discards what it
holds. Its semaphore counts exactly and refuses everything after its shutdown. The producers are
those of the documentation: producer `i` of `P` sends `i`, `P + i`, `2P + i` and so on.
-/

namespace Rapidsmpf.Streaming.Lineariser

open Protocol

/-- The number of producers, of the messages in all, and the size of a queue. -/
structure Config where
  producers : Nat
  messages : Nat
  bufferSize : Nat

/-- `BoundedQueue`: the queue, and the free tickets of the semaphore. -/
structure BoundedQueue where
  buffered : List Nat
  state : Running
  permits : Int
  closed : Bool

/-- `static_cast<std::ptrdiff_t>`. -/
def ptrdiff (size : Nat) : Int :=
  (size : Int).bmod (2 ^ 64)

namespace BoundedQueue

def new (bufferSize : Nat) : BoundedQueue := ⟨[], .running, ptrdiff bufferSize, false⟩

/-- A ticket is taken. -/
def acquire (q : BoundedQueue) : Option BoundedQueue :=
  if q.closed = false ∧ 0 < q.permits then some { q with permits := q.permits - 1 } else none

/-- `Ticket::send`, where the queue takes the message. -/
def send (q : BoundedQueue) (m : Nat) : Option BoundedQueue :=
  if q.state = .running then some { q with buffered := q.buffered ++ [m] } else none

/-- `receive`, with a message. -/
def receive (q : BoundedQueue) : Option (Nat × BoundedQueue) :=
  match q.buffered with
  | m :: rest => some (m, { q with buffered := rest })
  | [] => none

/-- `receive` yields an empty message. -/
def exhausted (q : BoundedQueue) : Bool :=
  q.state ≠ .running && q.buffered.isEmpty

/-- The release task of a message. -/
def release (q : BoundedQueue) : BoundedQueue := { q with permits := q.permits + 1 }

/-- `coro::queue::shutdown`. -/
def stop (q : BoundedQueue) : BoundedQueue := { q with buffered := [], state := .stopped }

/-- `coro::queue::shutdown_drain`, its first part. -/
def drain (q : BoundedQueue) : BoundedQueue :=
  if q.state = .running then { q with state := .draining } else q

/-- The shutdown of the semaphore. -/
def close (q : BoundedQueue) : BoundedQueue := { q with closed := true }

end BoundedQueue

/-- Where a producer is. The number counts its messages. -/
inductive Producer where
  | acquiring (k : Nat)
  /-- It holds a ticket. -/
  | sending (k : Nat)
  /-- It has left the loop. -/
  | leaving
  /-- In `drain`, until the queue is empty. -/
  | draining
  | closing
  | done

/-- A producer and its queue. -/
structure Lane where
  producer : Producer
  queue : BoundedQueue

/-- Where `Lineariser::drain` is. -/
inductive Stage where
  /-- In the loop over the queues, at position `j`. -/
  | receiving (j : Nat)
  /-- It has received the message from queue `i`. -/
  | sending (j i m : Nat)
  /-- It has sent the message, and not yet released the ticket of queue `i`. -/
  | releasing (j i : Nat)
  /-- The loop is left. -/
  | shuttingDown
  | closing
  | returned

structure State where
  lanes : Nat → Lane
  /-- `queues_`. -/
  queues : List (Option Nat)
  stage : Stage
  outlet : Outlet Nat

inductive ProducerLabel where
  | acquire
  | noTicket
  | send
  /-- The queue refuses the message; the producer goes on or gives up. -/
  | refused (stop : Bool)
  | leave
  | drain
  | drained
  | close

inductive Label where
  | producer (i : Nat) (l : ProducerLabel)
  | receive
  | exhausted
  | send
  | refused
  | release
  | erase
  | stopQueue (i : Nat)
  | closeSemaphore (i : Nat)
  | drainOut
  | drained
  | close
  | consumer (c : Consumer)

/-- The message `k` of producer `i`. -/
def Config.message (cfg : Config) (i k : Nat) : Nat := i + k * cfg.producers

/-- A step of producer `i`. -/
def produce (cfg : Config) (i : Nat) (l : ProducerLabel) (x : Lane) : Option Lane :=
  match l, x.producer with
  | .acquire, .acquiring k =>
      if cfg.message i k < cfg.messages then
        x.queue.acquire.map fun queue => ⟨.sending k, queue⟩
      else none
  | .noTicket, .acquiring k =>
      if cfg.message i k < cfg.messages ∧ x.queue.closed = true then
        some { x with producer := .leaving }
      else none
  | .send, .sending k =>
      (x.queue.send (cfg.message i k)).map fun queue => ⟨.acquiring (k + 1), queue⟩
  | .refused stop, .sending k =>
      if x.queue.state = .running then none
      else some { x with producer := if stop then .leaving else .acquiring (k + 1) }
  | .leave, .acquiring k =>
      if cfg.message i k < cfg.messages then none else some { x with producer := .leaving }
  | .drain, .leaving => some ⟨.draining, x.queue.drain⟩
  | .drained, .draining =>
      if x.queue.buffered = [] then some ⟨.closing, x.queue.stop⟩ else none
  | .close, .closing => some ⟨.done, x.queue.close⟩
  | _, _ => none

/-- The queue of lane `i` changes. -/
def onQueue (s : State) (i : Nat) (queue : BoundedQueue) : State :=
  { s with lanes := Function.update s.lanes i { s.lanes i with queue } }

/-- The condition of the outer loop. -/
def enter (queues : List (Option Nat)) : Stage :=
  if queues = [] then .shuttingDown else .receiving 0

def step (cfg : Config) (l : Label) (s : State) : Option State :=
  match l, s.stage with
  | .producer i l, _ =>
      if i < cfg.producers then
        (produce cfg i l (s.lanes i)).map fun x =>
          { s with lanes := Function.update s.lanes i x }
      else none
  | .receive, .receiving j =>
      match s.queues[j]? with
      | some (some i) => (s.lanes i).queue.receive.map fun (m, queue) =>
          { onQueue s i queue with stage := .sending j i m }
      | _ => none
  | .exhausted, .receiving j =>
      match s.queues[j]? with
      | some (some i) =>
          if (s.lanes i).queue.exhausted then
            some { s with queues := s.queues.set j none, stage := .receiving (j + 1) }
          else none
      | _ => none
  | .send, .sending j i m =>
      (s.outlet.produce m).map fun outlet => { s with outlet, stage := .releasing j i }
  | .refused, .sending _ _ _ =>
      -- the release task of the message is not awaited
      if s.outlet.ring.state = .running then none
      else some { s with queues := s.queues.filter Option.isSome, stage := .shuttingDown }
  | .release, .releasing j i =>
      some { onQueue s i (s.lanes i).queue.release with stage := .receiving (j + 1) }
  | .erase, .receiving j =>
      match s.queues[j]? with
      | some _ => none
      | none =>
          let queues := s.queues.filter Option.isSome
          some { s with queues, stage := enter queues }
  | .stopQueue i, .shuttingDown =>
      if some i ∈ s.queues ∧ (s.lanes i).queue.state ≠ .stopped then
        some (onQueue s i (s.lanes i).queue.stop)
      else none
  | .closeSemaphore i, .shuttingDown =>
      if some i ∈ s.queues ∧ (s.lanes i).queue.closed = false then
        some (onQueue s i (s.lanes i).queue.close)
      else none
  | .drainOut, .shuttingDown =>
      if s.outlet.ring.state = .running then some { s with outlet := s.outlet.drain } else none
  | .drained, .shuttingDown =>
      if (∀ q ∈ s.queues, ∀ i ∈ q,
            (s.lanes i).queue.state = .stopped ∧ (s.lanes i).queue.closed = true) ∧
          s.outlet.ring.state ≠ .running ∧ s.outlet.ring.buffered = [] then
        some { s with stage := .closing }
      else none
  | .close, .closing => some { s with outlet := s.outlet.close, stage := .returned }
  | .consumer c, _ =>
      if s.outlet.ended = false ∧ s.outlet.shut = false then
        (s.outlet.act c).map fun outlet => { s with outlet }
      else none
  | _, _ => none

/-- The steps, one case for each way to take one. -/
inductive Moves (cfg : Config) (s : State) : State → Prop where
  | produce {i : Nat} {l : ProducerLabel} {x : Lane} : i < cfg.producers →
      produce cfg i l (s.lanes i) = some x →
      Moves cfg s { s with lanes := Function.update s.lanes i x }
  | receive {i j m : Nat} {q : BoundedQueue} : s.stage = .receiving j →
      s.queues[j]? = some (some i) → (s.lanes i).queue.receive = some (m, q) →
      Moves cfg s { onQueue s i q with stage := .sending j i m }
  | exhausted {i j : Nat} : s.stage = .receiving j → s.queues[j]? = some (some i) →
      (s.lanes i).queue.exhausted = true →
      Moves cfg s { s with queues := s.queues.set j none, stage := .receiving (j + 1) }
  | send {i j m : Nat} {outlet : Outlet Nat} : s.stage = .sending j i m →
      s.outlet.produce m = some outlet → Moves cfg s { s with outlet, stage := .releasing j i }
  | refused {i j m : Nat} : s.stage = .sending j i m → s.outlet.ring.state ≠ .running →
      Moves cfg s { s with queues := s.queues.filter Option.isSome, stage := .shuttingDown }
  | release {i j : Nat} : s.stage = .releasing j i →
      Moves cfg s { onQueue s i (s.lanes i).queue.release with stage := .receiving (j + 1) }
  | erase {j : Nat} : s.stage = .receiving j → s.queues[j]? = none →
      Moves cfg s { s with
        queues := s.queues.filter Option.isSome
        stage := enter (s.queues.filter Option.isSome) }
  | stopQueue {i : Nat} : s.stage = .shuttingDown → some i ∈ s.queues →
      (s.lanes i).queue.state ≠ .stopped → Moves cfg s (onQueue s i (s.lanes i).queue.stop)
  | closeSemaphore {i : Nat} : s.stage = .shuttingDown → some i ∈ s.queues →
      (s.lanes i).queue.closed = false → Moves cfg s (onQueue s i (s.lanes i).queue.close)
  | drainOut : s.stage = .shuttingDown → s.outlet.ring.state = .running →
      Moves cfg s { s with outlet := s.outlet.drain }
  | drained : s.stage = .shuttingDown → s.outlet.ring.buffered = [] →
      Moves cfg s { s with stage := .closing }
  | close : s.stage = .closing → Moves cfg s { s with outlet := s.outlet.close, stage := .returned }
  | consume {c : Consumer} {outlet : Outlet Nat} : s.outlet.ended = false →
      s.outlet.shut = false → s.outlet.act c = some outlet → Moves cfg s { s with outlet }

theorem step_moves {cfg : Config} {s s' : State} {l : Label} (h : step cfg l s = some s') :
    Moves cfg s s' := by
  unfold step at h
  split at h
  case h_1 i l =>
    split at h
    · next hi =>
        obtain ⟨x, hx, rfl⟩ := Option.map_eq_some_iff.mp h
        exact .produce hi hx
    · cases h
  case h_2 j hstage =>
    split at h
    · next i hi =>
        obtain ⟨⟨m, q⟩, hq, rfl⟩ := Option.map_eq_some_iff.mp h
        exact .receive hstage hi hq
    · cases h
  case h_3 j hstage =>
    split at h
    · next i hi =>
        split at h
        · next hexhausted =>
            cases h
            exact .exhausted hstage hi hexhausted
        · cases h
    · cases h
  case h_4 j i m hstage =>
    obtain ⟨outlet, hproduce, rfl⟩ := Option.map_eq_some_iff.mp h
    exact .send hstage hproduce
  case h_5 j i m hstage =>
    split at h
    · cases h
    · next hstate =>
        cases h
        exact .refused hstage hstate
  case h_6 j i hstage =>
    cases h
    exact .release hstage
  case h_7 j hstage =>
    split at h
    · cases h
    · next hnone =>
        cases h
        exact .erase hstage hnone
  case h_8 i hstage =>
    split at h
    · next hguard =>
        cases h
        exact .stopQueue hstage hguard.1 hguard.2
    · cases h
  case h_9 i hstage =>
    split at h
    · next hguard =>
        cases h
        exact .closeSemaphore hstage hguard.1 hguard.2
    · cases h
  case h_10 hstage =>
    split at h
    · next hrunning =>
        cases h
        exact .drainOut hstage hrunning
    · cases h
  case h_11 hstage =>
    split at h
    · next hdone =>
        cases h
        exact .drained hstage hdone.2.2
    · cases h
  case h_12 hstage =>
    cases h
    exact .close hstage
  case h_13 c =>
    split at h
    · next hopen =>
        obtain ⟨outlet, hact, rfl⟩ := Option.map_eq_some_iff.mp h
        exact .consume hopen.1 hopen.2 hact
    · cases h
  case h_14 => cases h

/-- The lineariser as it is constructed, with producers that have not begun. -/
def State.new (cfg : Config) : State where
  lanes := fun _ => ⟨.acquiring 0, .new cfg.bufferSize⟩
  queues := (List.range cfg.producers).map some
  stage := enter ((List.range cfg.producers).map some)
  outlet := .new

def system (cfg : Config) : System State Label where
  init s := s = .new cfg
  step s l s' := step cfg l s = some s'

/-! ## A producer and its queue -/

/-- The ticket that a producer holds. -/
def Producer.holding : Producer → Nat
  | .sending _ => 1
  | _ => 0

/-- The ticket that the lineariser holds of queue `i`. -/
def Stage.inHand : Stage → Nat → Nat
  | .sending _ i' _, i => if i' = i then 1 else 0
  | .releasing _ i', i => if i' = i then 1 else 0
  | _, _ => 0

/-- A producer that has sent `k` messages, while no queue is shut down by others. -/
inductive Feeds (cfg : Config) (i k : Nat) : Lane → Prop where
  | acquiring {q : BoundedQueue} (hstate : q.state = .running) (hclosed : q.closed = false) :
      Feeds cfg i k ⟨.acquiring k, q⟩
  | sending {q : BoundedQueue} (hlt : cfg.message i k < cfg.messages) (hstate : q.state = .running)
      (hclosed : q.closed = false) : Feeds cfg i k ⟨.sending k, q⟩
  | leaving {q : BoundedQueue} (hall : cfg.messages ≤ cfg.message i k)
      (hstate : q.state = .running) : Feeds cfg i k ⟨.leaving, q⟩
  | draining {q : BoundedQueue} (hall : cfg.messages ≤ cfg.message i k)
      (hstate : q.state = .draining) : Feeds cfg i k ⟨.draining, q⟩
  | closing {q : BoundedQueue} (hall : cfg.messages ≤ cfg.message i k)
      (hstate : q.state = .stopped) : Feeds cfg i k ⟨.closing, q⟩
  | done {q : BoundedQueue} (hall : cfg.messages ≤ cfg.message i k)
      (hstate : q.state = .stopped) : Feeds cfg i k ⟨.done, q⟩

/-- Lane `i` after `taken` of its messages were received, with `n` more in the queue. -/
structure Feeding (cfg : Config) (i taken n inHand : Nat) (x : Lane) : Prop where
  feeds : Feeds cfg i (taken + n) x
  buffered : x.queue.buffered = (List.range' taken n).map (cfg.message i)
  below : ∀ k < taken + n, cfg.message i k < cfg.messages
  tickets : x.queue.permits + x.producer.holding + n + inHand = ptrdiff cfg.bufferSize

/-- No more tickets are out than the semaphore had. -/
structure Bounded (cfg : Config) (inHand : Nat) (x : Lane) : Prop where
  total : x.queue.permits + x.producer.holding + x.queue.buffered.length + inHand ≤
    ptrdiff cfg.bufferSize
  nonneg : 0 ≤ x.queue.permits ∨ x.producer.holding + x.queue.buffered.length + inHand = 0

section Lanes

variable {cfg : Config} {i taken n inHand : Nat} {x x' : Lane} {l : ProducerLabel}

theorem bmod_le_self (x m : Nat) : (x : Int).bmod m ≤ x := by
  have hmod : (x : Int) % m ≤ x := by exact_mod_cast Nat.mod_le x m
  rw [Int.bmod_def]
  split
  · exact hmod
  · omega

theorem ptrdiff_le (size : Nat) : ptrdiff size ≤ size :=
  bmod_le_self size _

theorem ptrdiff_eq {size : Nat} (h : size < 2 ^ 63) : ptrdiff size = size :=
  Int.bmod_eq_of_le (by norm_num) (by norm_num; omega)

theorem acquire_eq_some {q q' : BoundedQueue} (h : q.acquire = some q') :
    q.closed = false ∧ 0 < q.permits ∧ q' = { q with permits := q.permits - 1 } := by
  unfold BoundedQueue.acquire at h
  split at h
  · next hfree =>
      cases h
      exact ⟨hfree.1, hfree.2, rfl⟩
  · cases h

theorem send_eq_some {q q' : BoundedQueue} {m : Nat} (h : q.send m = some q') :
    q.state = .running ∧ q' = { q with buffered := q.buffered ++ [m] } := by
  unfold BoundedQueue.send at h
  split at h
  · next hrunning =>
      cases h
      exact ⟨hrunning, rfl⟩
  · cases h

theorem receive_eq_some {q q' : BoundedQueue} {m : Nat} (h : q.receive = some (m, q')) :
    q.buffered = m :: q'.buffered ∧ q' = { q with buffered := q'.buffered } := by
  unfold BoundedQueue.receive at h
  split at h
  · next hbuffered =>
      cases h
      exact ⟨hbuffered, rfl⟩
  · cases h

/-- A producer goes on with the messages in order. -/
theorem Feeding.produce (h : Feeding cfg i taken n inHand x) (hx : produce cfg i l x = some x') :
    ∃ n', Feeding cfg i taken n' inHand x' := by
  obtain ⟨hfeeds, hbuffered, hbelow, htickets⟩ := h
  unfold Lineariser.produce at hx
  cases hfeeds with
  | @acquiring q hstate hclosed =>
      cases l with
      | acquire =>
          simp only at hx
          split at hx
          · next hlt =>
              obtain ⟨q', hq, rfl⟩ := Option.map_eq_some_iff.mp hx
              obtain ⟨-, -, rfl⟩ := acquire_eq_some hq
              refine ⟨n, .sending hlt hstate hclosed, hbuffered, hbelow, ?_⟩
              simp only [Producer.holding] at htickets ⊢
              omega
          · cases hx
      | noTicket =>
          simp only [hclosed] at hx
          split at hx
          · next hfalse => cases hfalse.2
          · cases hx
      | leave =>
          simp only at hx
          split at hx
          · cases hx
          · next hall =>
              cases hx
              exact ⟨n, .leaving (Nat.le_of_not_lt hall) hstate, hbuffered, hbelow, htickets⟩
      | _ => cases hx
  | @sending q hlt hstate hclosed =>
      cases l with
      | send =>
          simp only at hx
          obtain ⟨q', hq, rfl⟩ := Option.map_eq_some_iff.mp hx
          obtain ⟨-, rfl⟩ := send_eq_some hq
          refine ⟨n + 1, .acquiring hstate hclosed, ?_, fun k hk => ?_, ?_⟩
          · rw [List.range'_concat, List.map_append, ← hbuffered, Nat.one_mul]
            rfl
          · rcases Nat.lt_succ_iff_lt_or_eq.mp hk with hk | rfl
            · exact hbelow k hk
            · exact hlt
          · simp only [Producer.holding] at htickets ⊢
            omega
      | refused stop =>
          simp only at hx
          split at hx
          · cases hx
          · next hnot => exact absurd hstate hnot
      | _ => cases hx
  | @leaving q hall hstate =>
      cases l with
      | drain =>
          cases hx
          refine ⟨n, .draining hall ?_, ?_, hbelow, ?_⟩
          · rw [BoundedQueue.drain, if_pos hstate]
          · rw [BoundedQueue.drain, if_pos hstate]
            exact hbuffered
          · rw [BoundedQueue.drain, if_pos hstate]
            exact htickets
      | _ => cases hx
  | @draining q hall hstate =>
      cases l with
      | drained =>
          simp only at hx
          split at hx
          · next hempty =>
              cases hx
              have hzero : n = 0 := by
                rw [hempty] at hbuffered
                simpa using hbuffered.symm
              subst hzero
              exact ⟨0, .closing hall rfl, rfl, hbelow, htickets⟩
          · cases hx
      | _ => cases hx
  | @closing q hall hstate =>
      cases l with
      | close =>
          cases hx
          exact ⟨n, .done hall hstate, hbuffered, hbelow, htickets⟩
      | _ => cases hx
  | @done q hall hstate => cases l <;> cases hx

/-- What is received is the next message of the producer. -/
theorem Feeding.receive {q : BoundedQueue} {m : Nat} (h : Feeding cfg i taken n 0 x)
    (hq : x.queue.receive = some (m, q)) :
    m = cfg.message i taken ∧ m < cfg.messages ∧
      ∃ n', Feeding cfg i (taken + 1) n' 1 { x with queue := q } := by
  obtain ⟨hcons, hsame⟩ := receive_eq_some hq
  obtain ⟨hfeeds, hbuffered, hbelow, htickets⟩ := h
  cases n with
  | zero =>
      rw [hcons] at hbuffered
      cases hbuffered
  | succ n =>
      rw [hcons, List.range'_succ, List.map_cons] at hbuffered
      obtain ⟨rfl, hrest⟩ := List.cons.inj hbuffered
      have hstate : q.state = x.queue.state := by rw [hsame]
      have hclosed : q.closed = x.queue.closed := by rw [hsame]
      have hpermits : q.permits = x.queue.permits := by rw [hsame]
      have hk : taken + (n + 1) = taken + 1 + n := by omega
      rw [hk] at hfeeds hbelow
      refine ⟨rfl, hbelow taken (by omega), n, ?_, hrest, hbelow, ?_⟩
      · cases hfeeds with
        | acquiring hrunning hopen =>
            exact .acquiring (hstate.trans hrunning) (hclosed.trans hopen)
        | sending hlt hrunning hopen =>
            exact .sending hlt (hstate.trans hrunning) (hclosed.trans hopen)
        | leaving hall hrunning => exact .leaving hall (hstate.trans hrunning)
        | draining hall hdraining => exact .draining hall (hstate.trans hdraining)
        | closing hall hstopped => exact .closing hall (hstate.trans hstopped)
        | done hall hstopped => exact .done hall (hstate.trans hstopped)
      · simp only [hpermits]
        push_cast at htickets ⊢
        omega

/-- A queue that yields nothing any more has yielded all messages of its producer. -/
theorem Feeding.exhausted (h : Feeding cfg i taken n inHand x)
    (hq : x.queue.exhausted = true) : cfg.messages ≤ cfg.message i taken := by
  obtain ⟨hfeeds, hbuffered, -, -⟩ := h
  simp only [BoundedQueue.exhausted, Bool.and_eq_true, decide_eq_true_eq, List.isEmpty_iff] at hq
  obtain ⟨hstate, hempty⟩ := hq
  have hzero : n = 0 := by
    rw [hempty] at hbuffered
    simpa using hbuffered.symm
  subst hzero
  cases hfeeds with
  | acquiring hrunning _ => exact absurd hrunning hstate
  | sending _ hrunning _ => exact absurd hrunning hstate
  | leaving hall _ => exact hall
  | draining hall _ => exact hall
  | closing hall _ => exact hall
  | done hall _ => exact hall

theorem Feeding.release (h : Feeding cfg i taken n 1 x) :
    Feeding cfg i taken n 0 { x with queue := x.queue.release } := by
  obtain ⟨hfeeds, hbuffered, hbelow, htickets⟩ := h
  refine ⟨?_, hbuffered, hbelow, ?_⟩
  · cases hfeeds with
    | acquiring hrunning hopen => exact .acquiring hrunning hopen
    | sending hlt hrunning hopen => exact .sending hlt hrunning hopen
    | leaving hall hrunning => exact .leaving hall hrunning
    | draining hall hdraining => exact .draining hall hdraining
    | closing hall hstopped => exact .closing hall hstopped
    | done hall hstopped => exact .done hall hstopped
  · simp only [BoundedQueue.release]
    push_cast at htickets ⊢
    omega

/-- Tickets that are used up or lost. -/
theorem Bounded.shrink {inHand' : Nat} (h : Bounded cfg inHand x)
    (hpermits : x'.queue.permits = x.queue.permits)
    (hholding : x'.producer.holding ≤ x.producer.holding)
    (hbuffered : x'.queue.buffered.length ≤ x.queue.buffered.length) (hhand : inHand' ≤ inHand) :
    Bounded cfg inHand' x' := by
  obtain ⟨htotal, hnonneg⟩ := h
  refine ⟨?_, ?_⟩
  · rw [hpermits]
    omega
  · rw [hpermits]
    omega

theorem Bounded.produce (h : Bounded cfg inHand x) (hx : produce cfg i l x = some x') :
    Bounded cfg inHand x' := by
  obtain ⟨producer, q⟩ := x
  unfold Lineariser.produce at hx
  split at hx
  case h_1 hproducer =>
    obtain rfl : producer = _ := hproducer
    obtain ⟨htotal, hnonneg⟩ := h
    split at hx
    · obtain ⟨q', hq, rfl⟩ := Option.map_eq_some_iff.mp hx
      obtain ⟨-, hpos, rfl⟩ := acquire_eq_some hq
      simp only [Producer.holding] at hpos htotal
      refine ⟨?_, .inl ?_⟩
      · simp only [Producer.holding]
        omega
      · simp only
        omega
    · cases hx
  case h_2 =>
    split at hx
    · cases hx
      exact h.shrink rfl (Nat.zero_le _) (Nat.le_refl _) (Nat.le_refl _)
    · cases hx
  case h_3 hproducer =>
    obtain rfl : producer = _ := hproducer
    obtain ⟨htotal, hnonneg⟩ := h
    obtain ⟨q', hq, rfl⟩ := Option.map_eq_some_iff.mp hx
    obtain ⟨-, rfl⟩ := send_eq_some hq
    simp only [Producer.holding] at htotal hnonneg
    refine ⟨?_, ?_⟩
    · simp only [Producer.holding, List.length_append, List.length_singleton]
      omega
    · simp only [Producer.holding, List.length_append, List.length_singleton]
      omega
  case h_4 stop k hproducer =>
    split at hx
    · cases hx
    · cases hx
      refine h.shrink rfl ?_ (Nat.le_refl _) (Nat.le_refl _)
      cases stop
      · exact Nat.zero_le _
      · exact Nat.zero_le _
  case h_5 =>
    split at hx
    · cases hx
    · cases hx
      exact h.shrink rfl (Nat.zero_le _) (Nat.le_refl _) (Nat.le_refl _)
  case h_6 =>
    cases hx
    refine h.shrink ?_ (Nat.zero_le _) (le_of_eq ?_) (Nat.le_refl _)
    · rw [BoundedQueue.drain]
      split <;> rfl
    · rw [BoundedQueue.drain]
      split <;> rfl
  case h_7 =>
    split at hx
    · cases hx
      exact h.shrink rfl (Nat.zero_le _) (Nat.zero_le _) (Nat.le_refl _)
    · cases hx
  case h_8 =>
    cases hx
    exact h.shrink rfl (Nat.zero_le _) (Nat.le_refl _) (Nat.le_refl _)
  case h_9 => cases hx

end Lanes

/-! ## The order -/

/-- The loop in round `r`, when the queues before position `j` have had their turn. -/
structure Active (cfg : Config) (s : State) (r j : Nat) : Prop where
  length : s.queues.length ≤ cfg.producers
  slot : ∀ i < s.queues.length,
    s.queues[i]? = some (if i < j ∧ cfg.messages ≤ cfg.message i r then none else some i)
  gone : ∀ i < cfg.producers, s.queues.length ≤ i → cfg.messages ≤ cfg.message i r
  feeding : ∀ i, s.queues[i]? = some (some i) →
    ∃ n, Feeding cfg i (if i < j then r + 1 else r) n (s.stage.inHand i) (s.lanes i)
  running : s.outlet.ring.state = .running ∨ s.outlet.shut = true

/-- What was sent to the output channel, by the stage of the lineariser. -/
inductive Order (cfg : Config) (s : State) : Stage → Prop where
  | receiving {r j : Nat} (h : Active cfg s r j) (hj : j ≤ s.queues.length)
      (hsent : s.outlet.sent = List.range (min cfg.messages (cfg.message j r))) :
      Order cfg s (.receiving j)
  | sending {r j : Nat} (h : Active cfg s r (j + 1)) (hj : j < s.queues.length)
      (hlt : cfg.message j r < cfg.messages)
      (hsent : s.outlet.sent = List.range (cfg.message j r)) :
      Order cfg s (.sending j j (cfg.message j r))
  | releasing {r j : Nat} (h : Active cfg s r (j + 1)) (hj : j < s.queues.length)
      (hlt : cfg.message j r < cfg.messages)
      (hsent : s.outlet.sent = List.range (cfg.message j r + 1)) : Order cfg s (.releasing j j)
  | shuttingDown (hsent : s.outlet.sent <+: List.range cfg.messages)
      (hall : s.outlet.shut = false → s.outlet.sent = List.range cfg.messages)
      (hopen : s.outlet.ring.state = .stopped → s.outlet.shut = true) :
      Order cfg s .shuttingDown
  | closing (hsent : s.outlet.sent <+: List.range cfg.messages)
      (hall : s.outlet.shut = false → s.outlet.received = List.range cfg.messages) :
      Order cfg s .closing
  | returned (hsent : s.outlet.sent <+: List.range cfg.messages)
      (hall : s.outlet.shut = false → s.outlet.received = List.range cfg.messages)
      (hstopped : s.outlet.ring.state = .stopped) : Order cfg s .returned

/-- What holds of a lineariser. -/
structure Sound (cfg : Config) (s : State) : Prop where
  outlet : s.outlet.Sound
  order : Order cfg s s.stage
  known : ∀ i, some i ∈ s.queues → i < cfg.producers
  bounded : ∀ i < cfg.producers, Bounded cfg (s.stage.inHand i) (s.lanes i)

section Steps

variable {cfg : Config} {s s' : State} {i j r : Nat}

theorem range_prefix {m n : Nat} (h : m ≤ n) : List.range m <+: List.range n := by
  obtain ⟨k, rfl⟩ := Nat.exists_eq_add_of_le h
  rw [List.range_add]
  exact List.prefix_append _ _

/-- In every stage a beginning of the sequence was sent. -/
theorem Order.sent_begins {stage : Stage} (h : Order cfg s stage) :
    s.outlet.sent <+: List.range cfg.messages := by
  cases h with
  | receiving _ _ hsent =>
      rw [hsent]
      exact range_prefix (Nat.min_le_left _ _)
  | sending _ _ hlt hsent =>
      rw [hsent]
      exact range_prefix hlt.le
  | releasing _ _ hlt hsent =>
      rw [hsent]
      exact range_prefix hlt
  | shuttingDown hsent => exact hsent
  | closing hsent => exact hsent
  | returned hsent => exact hsent

/-- Steps that leave the loop where it is. -/
theorem Active.frame (h : Active cfg s r j) (hqueues : s'.queues = s.queues)
    (hfeeding : ∀ i, s.queues[i]? = some (some i) →
      (∃ n, Feeding cfg i (if i < j then r + 1 else r) n (s.stage.inHand i) (s.lanes i)) →
      ∃ n, Feeding cfg i (if i < j then r + 1 else r) n (s'.stage.inHand i) (s'.lanes i))
    (hrunning : s.outlet.ring.state = .running ∨ s.outlet.shut = true →
      s'.outlet.ring.state = .running ∨ s'.outlet.shut = true) : Active cfg s' r j where
  length := hqueues ▸ h.length
  slot := hqueues ▸ h.slot
  gone := hqueues ▸ h.gone
  feeding i hi := by
    rw [hqueues] at hi
    exact hfeeding i hi (h.feeding i hi)
  running := hrunning h.running

/-- A step of the producers or of the consumer. -/
theorem Order.frame (h : Order cfg s s.stage) (hstage : s'.stage = s.stage)
    (hqueues : s'.queues = s.queues)
    (hfeeding : ∀ i taken, s.queues[i]? = some (some i) →
      (∃ n, Feeding cfg i taken n (s.stage.inHand i) (s.lanes i)) →
      ∃ n, Feeding cfg i taken n (s.stage.inHand i) (s'.lanes i))
    (hsent : s'.outlet.sent = s.outlet.sent)
    (hshut : s.outlet.shut = true → s'.outlet.shut = true)
    (hstate : s'.outlet.shut = true ∨
      s'.outlet.shut = s.outlet.shut ∧ s'.outlet.ring.state = s.outlet.ring.state)
    (hstop : s.outlet.ring.state = .stopped → s'.outlet.ring.state = .stopped)
    (hreceived : s.outlet.received = List.range cfg.messages →
      s'.outlet.received = List.range cfg.messages) : Order cfg s' s'.stage := by
  have hactive : ∀ r j, Active cfg s r j → Active cfg s' r j := by
    intro r j h
    refine h.frame hqueues (fun i hi hn => ?_) fun hrunning => ?_
    · rw [hstage]
      exact hfeeding i _ hi hn
    · rcases hstate with hshut' | ⟨-, hsame⟩
      · exact .inr hshut'
      · rw [hsame]
        exact hrunning.imp id hshut
  have hopened : s'.outlet.shut = false → s.outlet.shut = false := by
    intro h'
    by_contra hne
    rw [hshut (Bool.eq_true_of_not_eq_false hne)] at h'
    cases h'
  rw [hstage]
  generalize hgen : s.stage = stage at h
  cases h with
  | receiving h hj hsent' =>
      exact .receiving (hactive _ _ h) (hqueues ▸ hj) (hsent.trans hsent')
  | sending h hj hlt hsent' =>
      exact .sending (hactive _ _ h) (hqueues ▸ hj) hlt (hsent.trans hsent')
  | releasing h hj hlt hsent' =>
      exact .releasing (hactive _ _ h) (hqueues ▸ hj) hlt (hsent.trans hsent')
  | shuttingDown hprefix hall hopen =>
      refine .shuttingDown (hsent ▸ hprefix) (fun h => hsent.trans (hall (hopened h))) fun h => ?_
      rcases hstate with hshut' | ⟨hsame, hsame'⟩
      · exact hshut'
      · rw [hsame]
        exact hopen (hsame' ▸ h)
  | closing hprefix hall =>
      exact .closing (hsent ▸ hprefix) fun h => hreceived (hall (hopened h))
  | returned hprefix hall hstopped =>
      exact .returned (hsent ▸ hprefix) (fun h => hreceived (hall (hopened h))) (hstop hstopped)

theorem message_succ (cfg : Config) (j r : Nat) :
    cfg.message (j + 1) r = cfg.message j r + 1 := by
  unfold Config.message
  omega

/-- The slot whose turn it is holds its own queue. -/
theorem Active.current (h : Active cfg s r j) (hi : s.queues[j]? = some (some i)) :
    i = j ∧ j < s.queues.length := by
  have hlt := (List.getElem?_eq_some_iff.mp hi).1
  rw [h.slot j hlt, if_neg fun h => Nat.lt_irrefl j h.1] at hi
  exact ⟨(Option.some.inj (Option.some.inj hi)).symm, hlt⟩

/-- The message of the queue at the position is the next one of the sequence. -/
theorem Active.receive {q : BoundedQueue} {m : Nat} (h : Active cfg s r j)
    (hstage : s.stage = .receiving j) (hj : s.queues[j]? = some (some j))
    (hq : (s.lanes j).queue.receive = some (m, q)) :
    m = cfg.message j r ∧ m < cfg.messages ∧
      Active cfg { onQueue s j q with stage := .sending j j m } r (j + 1) := by
  have hhand : ∀ i, s.stage.inHand i = 0 := fun i => by rw [hstage]; rfl
  obtain ⟨n, hfeeding⟩ := h.feeding j hj
  rw [if_neg (Nat.lt_irrefl j), hhand] at hfeeding
  obtain ⟨rfl, hlt, n', hnext⟩ := hfeeding.receive hq
  refine ⟨rfl, hlt, h.length, fun i hi => ?_, h.gone, fun i hi => ?_, h.running⟩
  · change s.queues[i]? = _
    rw [h.slot i hi]
    by_cases hij : i = j
    · subst hij
      rw [if_neg fun h => Nat.lt_irrefl i h.1, if_neg fun h => Nat.not_le_of_lt hlt h.2]
    · have hiff : i < j + 1 ↔ i < j := by omega
      simp only [hiff]
  · by_cases hij : i = j
    · subst hij
      refine ⟨n', ?_⟩
      simp only [onQueue, Function.update_self, Stage.inHand, if_pos, Nat.lt_succ_self]
      exact hnext
    · obtain ⟨n'', hother⟩ := h.feeding i hi
      refine ⟨n'', ?_⟩
      have hiff : i < j + 1 ↔ i < j := by omega
      simp only [onQueue, Function.update_of_ne hij, Stage.inHand, if_neg (Ne.symm hij), hiff]
      rwa [hhand] at hother

theorem Active.exhausted (h : Active cfg s r j) (hstage : s.stage = .receiving j)
    (hj : s.queues[j]? = some (some j)) (hq : (s.lanes j).queue.exhausted = true) :
    cfg.messages ≤ cfg.message j r ∧
      Active cfg { s with queues := s.queues.set j none, stage := .receiving (j + 1) } r
        (j + 1) := by
  have hlt := (List.getElem?_eq_some_iff.mp hj).1
  obtain ⟨n, hfeeding⟩ := h.feeding j hj
  rw [if_neg (Nat.lt_irrefl j)] at hfeeding
  have hall := hfeeding.exhausted hq
  refine ⟨hall, (List.length_set.trans_le h.length), fun i hi => ?_, fun i hi hle => ?_,
    fun i hi => ?_, h.running⟩
  · rw [List.length_set] at hi
    by_cases hij : i = j
    · subst hij
      rw [List.getElem?_set_self hi, if_pos ⟨Nat.lt_succ_self i, hall⟩]
    · have hiff : i < j + 1 ↔ i < j := by omega
      rw [List.getElem?_set_ne (Ne.symm hij), h.slot i hi]
      simp only [hiff]
  · exact h.gone i hi (List.length_set ▸ hle)
  · by_cases hij : i = j
    · subst hij
      rw [List.getElem?_set_self hlt] at hi
      cases hi
    · rw [List.getElem?_set_ne (Ne.symm hij)] at hi
      have hiff : i < j + 1 ↔ i < j := by omega
      have hother := h.feeding i hi
      rw [hstage] at hother
      simp only [hiff]
      exact hother

theorem Active.release (h : Active cfg s r (j + 1)) (hstage : s.stage = .releasing j j)
    (hj : j < s.queues.length) (hlt : cfg.message j r < cfg.messages) :
    Active cfg { onQueue s j (s.lanes j).queue.release with stage := .receiving (j + 1) } r
      (j + 1) := by
  have hslot : s.queues[j]? = some (some j) := by
    rw [h.slot j hj, if_neg fun h => Nat.not_le_of_lt hlt h.2]
  refine ⟨h.length, h.slot, h.gone, fun i hi => ?_, h.running⟩
  by_cases hij : i = j
  · subst hij
    obtain ⟨n, hfeeding⟩ := h.feeding i hslot
    have hhand : s.stage.inHand i = 1 := by
      rw [hstage]
      exact if_pos rfl
    rw [hhand] at hfeeding
    refine ⟨n, ?_⟩
    simp only [onQueue, Function.update_self, Stage.inHand]
    exact hfeeding.release
  · obtain ⟨n, hfeeding⟩ := h.feeding i hi
    have hhand : s.stage.inHand i = 0 := by
      rw [hstage]
      exact if_neg (Ne.symm hij)
    rw [hhand] at hfeeding
    refine ⟨n, ?_⟩
    simp only [onQueue, Function.update_of_ne hij, Stage.inHand]
    exact hfeeding

/-- The queues that are left at the end of a round are the first ones. -/
theorem Active.filter_eq (h : Active cfg s r j) (hj : s.queues.length ≤ j) :
    s.queues.filter Option.isSome =
      (List.range (min s.queues.length (cfg.messages - r * cfg.producers))).map some := by
  set m := min s.queues.length (cfg.messages - r * cfg.producers) with hm
  have hsplit : s.queues =
      (List.range m).map some ++ List.replicate (s.queues.length - m) none := by
    refine List.ext_getElem? fun i => ?_
    by_cases hi : i < s.queues.length
    · rw [h.slot i hi, List.getElem?_append, List.length_map, List.length_range]
      unfold Config.message
      by_cases him : i < m
      · rw [if_neg (by omega), if_pos him, List.getElem?_map, List.getElem?_range him]
        rfl
      · rw [if_pos (by omega), if_neg him, List.getElem?_replicate, if_pos (by omega)]
    · rw [List.getElem?_eq_none (by omega), List.getElem?_eq_none]
      simp only [List.length_append, List.length_map, List.length_range, List.length_replicate]
      omega
  rw [hsplit, List.filter_append, List.filter_replicate]
  simp [List.filter_map, Function.comp_def]

/-- The end of a round. -/
theorem Active.erase (h : Active cfg s r j) (hP : 1 ≤ cfg.producers)
    (hstage : s.stage = .receiving j) (hj : j = s.queues.length)
    (hsent : s.outlet.sent = List.range (min cfg.messages (cfg.message j r))) :
    Order cfg { s with
        queues := s.queues.filter Option.isSome, stage := enter (s.queues.filter Option.isSome) }
      (enter (s.queues.filter Option.isSome)) := by
  have hfilter := h.filter_eq hj.ge
  have hlength := h.length
  have hgone := h.gone
  rw [hfilter]
  set m := min s.queues.length (cfg.messages - r * cfg.producers) with hm
  unfold Config.message at hsent hgone
  have hround : cfg.message 0 (r + 1) = r * cfg.producers + cfg.producers := by
    unfold Config.message
    rw [Nat.zero_add, Nat.succ_mul]
  -- a queue that is gone had nothing in this round
  have hless : s.queues.length < cfg.producers →
      cfg.messages ≤ s.queues.length + r * cfg.producers := fun hlt =>
    hgone _ hlt (Nat.le_refl _)
  by_cases hzero : m = 0
  · rw [hzero]
    have hall : s.outlet.sent = List.range cfg.messages := by
      rw [hsent]
      congr 1
      omega
    refine .shuttingDown (hall ▸ List.prefix_rfl) (fun _ => hall) fun hstopped => ?_
    exact h.running.resolve_left (by rw [hstopped]; nofun)
  · have hne : (List.range m).map some ≠ [] := by
      simpa using hzero
    rw [enter, if_neg hne]
    refine .receiving (r := r + 1) ⟨?_, fun i hi => ?_, fun i hi hle => ?_, fun i hi => ?_,
      h.running⟩ (Nat.zero_le _) ?_
    · simp only [List.length_map, List.length_range]
      omega
    · simp only [List.length_map, List.length_range] at hi
      rw [if_neg fun h => Nat.not_lt_zero i h.1, List.getElem?_map, List.getElem?_range hi]
      rfl
    · simp only [List.length_map, List.length_range] at hle
      have hi' := hgone i hi
      unfold Config.message
      rw [Nat.succ_mul]
      omega
    · have hi' : i < m := by
        have := (List.getElem?_eq_some_iff.mp hi).1
        simpa using this
      have hlt : i < s.queues.length := by omega
      have hslot : s.queues[i]? = some (some i) := by
        rw [h.slot i hlt, if_neg]
        unfold Config.message
        omega
      obtain ⟨n, hfeeding⟩ := h.feeding i hslot
      rw [if_pos (by omega), hstage] at hfeeding
      refine ⟨n, ?_⟩
      rw [if_neg (Nat.not_lt_zero i)]
      exact hfeeding
    · rw [hround]
      refine hsent.trans ?_
      congr 1
      omega

/-- The other lanes keep their tickets. -/
theorem bounded_update {lanes : Nat → Lane} {hand hand' : Nat → Nat} {x : Lane}
    (h : ∀ i' < cfg.producers, Bounded cfg (hand i') (lanes i'))
    (hi : i < cfg.producers → Bounded cfg (hand' i) x) (hhand : ∀ i' ≠ i, hand' i' ≤ hand i') :
    ∀ i' < cfg.producers, Bounded cfg (hand' i') (Function.update lanes i x i') := by
  intro i' hlt
  by_cases heq : i' = i
  · subst heq
    rw [Function.update_self]
    exact hi hlt
  · rw [Function.update_of_ne heq]
    exact (h i' hlt).shrink rfl (Nat.le_refl _) (Nat.le_refl _) (hhand i' heq)

theorem mem_of_mem_set_none {queues : List (Option Nat)} (h : some i ∈ queues.set j none) :
    some i ∈ queues := by
  rcases List.mem_or_eq_of_mem_set h with h | h
  · exact h
  · cases h

/-- A producer takes a step. -/
theorem Sound.produce {l : ProducerLabel} {x : Lane} (hs : Sound cfg s)
    (hx : Lineariser.produce cfg i l (s.lanes i) = some x) :
    Sound cfg { s with lanes := Function.update s.lanes i x } := by
  obtain ⟨houtlet, horder, hknown, hbounded⟩ := hs
  refine ⟨houtlet, ?_, hknown, bounded_update hbounded
    (fun hi => (hbounded i hi).produce hx) fun _ _ => Nat.le_refl _⟩
  refine horder.frame rfl rfl (fun i' taken _ hfeeding => ?_) rfl id (.inr ⟨rfl, rfl⟩) id id
  by_cases heq : i' = i
  · subst heq
    obtain ⟨n, hfeeding⟩ := hfeeding
    simp only [Function.update_self]
    exact hfeeding.produce hx
  · simp only [Function.update_of_ne heq]
    exact hfeeding

/-- The lineariser receives the next message of the sequence. -/
theorem Sound.receive {m : Nat} {q : BoundedQueue} (hs : Sound cfg s)
    (hstage : s.stage = .receiving j) (hi : s.queues[j]? = some (some i))
    (hq : (s.lanes i).queue.receive = some (m, q)) :
    Sound cfg { onQueue s i q with stage := .sending j i m } := by
  obtain ⟨houtlet, horder, hknown, hbounded⟩ := hs
  rw [hstage] at horder
  cases horder with
  | @receiving r _ hactive hj hsent =>
      obtain ⟨rfl, hlt⟩ := hactive.current hi
      obtain ⟨rfl, hless, hnext⟩ := hactive.receive hstage hi hq
      have hsent' : s.outlet.sent = List.range (cfg.message i r) := by
        rw [hsent, Nat.min_eq_right hless.le]
      refine ⟨houtlet, .sending hnext hlt hless hsent', hknown,
        bounded_update hbounded (fun hi => ?_) fun i' hne => ?_⟩
      · obtain ⟨htotal, hnonneg⟩ := hbounded i hi
        obtain ⟨hcons, hsame⟩ := receive_eq_some hq
        have hpermits : q.permits = (s.lanes i).queue.permits := by rw [hsame]
        rw [hstage] at htotal hnonneg
        simp only [Stage.inHand, hcons, List.length_cons] at htotal hnonneg
        refine ⟨?_, ?_⟩
        · simp only [Stage.inHand, if_pos, hpermits]
          push_cast at htotal ⊢
          omega
        · simp only [Stage.inHand, if_pos, hpermits]
          omega
      · simp only [Stage.inHand, if_neg (Ne.symm hne)]
        exact Nat.zero_le _

/-- A queue without further messages is dropped from the round. -/
theorem Sound.exhausted (hs : Sound cfg s) (hstage : s.stage = .receiving j)
    (hi : s.queues[j]? = some (some i)) (hexhausted : (s.lanes i).queue.exhausted = true) :
    Sound cfg { s with queues := s.queues.set j none, stage := .receiving (j + 1) } := by
  obtain ⟨houtlet, horder, hknown, hbounded⟩ := hs
  rw [hstage] at horder
  cases horder with
  | @receiving r _ hactive hj hsent =>
      obtain ⟨rfl, hlt⟩ := hactive.current hi
      obtain ⟨hall, hnext⟩ := hactive.exhausted hstage hi hexhausted
      refine ⟨houtlet, .receiving hnext (List.length_set.symm ▸ hlt) ?_,
        fun i' hi' => hknown i' (mem_of_mem_set_none hi'), ?_⟩
      · -- the producer has no message in this round, so the round passes it over
        refine hsent.trans ?_
        rw [message_succ]
        congr 1
        omega
      · rw [hstage] at hbounded
        exact hbounded

/-- The message in hand goes to the output. -/
theorem Sound.send {m : Nat} {outlet : Outlet Nat} (hs : Sound cfg s)
    (hstage : s.stage = .sending j i m) (hproduce : s.outlet.produce m = some outlet) :
    Sound cfg { s with outlet, stage := .releasing j i } := by
  obtain ⟨houtlet, horder, hknown, hbounded⟩ := hs
  rw [hstage] at horder
  cases horder with
  | @sending r _ hactive hj hlt hsent =>
      obtain ⟨hrunning, rfl⟩ := Outlet.produce_eq_some hproduce
      refine ⟨houtlet.produce hproduce, .releasing (hactive.frame rfl (fun i hi h => ?_)
        fun _ => .inl hrunning) hj hlt ?_, hknown, ?_⟩
      · rw [hstage] at h
        exact h
      · simp only
        rw [hsent, List.range_succ]
      · rw [hstage] at hbounded
        exact hbounded

/-- A closed output refuses the message in hand, and the lineariser shuts down. -/
theorem Sound.refused {m : Nat} (hs : Sound cfg s) (hstage : s.stage = .sending j i m)
    (hstate : s.outlet.ring.state ≠ .running) :
    Sound cfg { s with queues := s.queues.filter Option.isSome, stage := .shuttingDown } := by
  obtain ⟨houtlet, horder, hknown, hbounded⟩ := hs
  rw [hstage] at horder
  cases horder with
  | @sending r _ hactive hj hlt hsent =>
      -- only the consumer closes the output while messages are sent
      have hshut := hactive.running.resolve_left hstate
      refine ⟨houtlet, .shuttingDown ?_ (fun hopen => ?_) fun _ => hshut,
        fun i hi => hknown i (List.mem_of_mem_filter hi), fun i hi => ?_⟩
      · simp only
        rw [hsent]
        exact range_prefix hlt.le
      · rw [hshut] at hopen
        cases hopen
      · exact (hbounded i hi).shrink rfl (Nat.le_refl _) (Nat.le_refl _) (Nat.zero_le _)

/-- The ticket of the message goes back to its queue. -/
theorem Sound.release (hs : Sound cfg s) (hstage : s.stage = .releasing j i) :
    Sound cfg { onQueue s i (s.lanes i).queue.release with stage := .receiving (j + 1) } := by
  obtain ⟨houtlet, horder, hknown, hbounded⟩ := hs
  rw [hstage] at horder
  cases horder with
  | @releasing r _ hactive hj hlt hsent =>
      refine ⟨houtlet, .receiving (hactive.release hstage hj hlt) hj ?_, hknown,
        bounded_update hbounded (fun hi => ?_) fun _ _ => Nat.zero_le _⟩
      · refine hsent.trans ?_
        rw [message_succ, Nat.min_eq_right hlt]
      · obtain ⟨htotal, hnonneg⟩ := hbounded i hi
        rw [hstage] at htotal hnonneg
        simp only [Stage.inHand] at htotal hnonneg
        refine ⟨?_, ?_⟩
        · simp only [BoundedQueue.release, Stage.inHand]
          push_cast at htotal ⊢
          omega
        · simp only [BoundedQueue.release, Stage.inHand]
          omega

/-- The end of a round drops the queues without further messages. -/
theorem Sound.erase (hP : 1 ≤ cfg.producers) (hs : Sound cfg s) (hstage : s.stage = .receiving j)
    (hnone : s.queues[j]? = none) : Sound cfg { s with
        queues := s.queues.filter Option.isSome
        stage := enter (s.queues.filter Option.isSome) } := by
  obtain ⟨houtlet, horder, hknown, hbounded⟩ := hs
  rw [hstage] at horder
  cases horder with
  | @receiving r _ hactive hj hsent =>
      have hend : j = s.queues.length :=
        Nat.le_antisymm hj (List.getElem?_eq_none_iff.mp hnone)
      refine ⟨houtlet, hactive.erase hP hstage hend hsent,
        fun i hi => hknown i (List.mem_of_mem_filter hi), fun i hi => ?_⟩
      refine (hbounded i hi).shrink rfl (Nat.le_refl _) (Nat.le_refl _) ?_
      simp only [enter]
      split
      · exact Nat.zero_le _
      · exact Nat.zero_le _

/-- The shutdown changes a queue within its tickets. -/
theorem Sound.shut_queue {q : BoundedQueue} (hs : Sound cfg s) (hstage : s.stage = .shuttingDown)
    (hq : i < cfg.producers → Bounded cfg (s.stage.inHand i) { s.lanes i with queue := q }) :
    Sound cfg (onQueue s i q) := by
  obtain ⟨houtlet, horder, hknown, hbounded⟩ := hs
  rw [hstage] at horder
  cases horder with
  | shuttingDown hsent hall hopen =>
      refine ⟨houtlet, ?_, hknown, bounded_update hbounded hq fun _ _ => Nat.le_refl _⟩
      simp only [onQueue, hstage]
      exact .shuttingDown hsent hall hopen

theorem Sound.stop_queue (hs : Sound cfg s) (hstage : s.stage = .shuttingDown) :
    Sound cfg (onQueue s i (s.lanes i).queue.stop) :=
  hs.shut_queue hstage fun hi =>
    (hs.bounded i hi).shrink rfl (Nat.le_refl _) (Nat.zero_le _) (Nat.le_refl _)

theorem Sound.close_semaphore (hs : Sound cfg s) (hstage : s.stage = .shuttingDown) :
    Sound cfg (onQueue s i (s.lanes i).queue.close) :=
  hs.shut_queue hstage fun hi =>
    (hs.bounded i hi).shrink rfl (Nat.le_refl _) (Nat.le_refl _) (Nat.le_refl _)

/-- The shutdown starts to drain the output. -/
theorem Sound.drain_out (hs : Sound cfg s) (hstage : s.stage = .shuttingDown)
    (hrunning : s.outlet.ring.state = .running) :
    Sound cfg { s with outlet := s.outlet.drain } := by
  obtain ⟨houtlet, horder, hknown, hbounded⟩ := hs
  rw [hstage] at horder
  cases horder with
  | shuttingDown hsent hall hopen =>
      refine ⟨houtlet.drain, ?_, hknown, hbounded⟩
      simp only [hstage]
      refine .shuttingDown hsent hall fun hstopped => ?_
      simp [Outlet.drain, Ring.shutdownDrain, hrunning] at hstopped

/-- The output is drained. -/
theorem Sound.drained (hs : Sound cfg s) (hstage : s.stage = .shuttingDown)
    (hempty : s.outlet.ring.buffered = []) : Sound cfg { s with stage := .closing } := by
  obtain ⟨houtlet, horder, hknown, hbounded⟩ := hs
  rw [hstage] at horder
  cases horder with
  | shuttingDown hsent hall hopen =>
      refine ⟨houtlet, .closing hsent fun hshut => ?_, hknown, fun i hi => ?_⟩
      · -- the ring is stopped only if the consumer has shut it
        have hne : s.outlet.ring.state ≠ .stopped := fun h => by
          have hshut' : s.outlet.shut = true := hopen h
          have hshut : s.outlet.shut = false := hshut
          rw [hshut'] at hshut
          cases hshut
        exact (houtlet.received_all hne hempty).trans (hall hshut)
      · exact (hbounded i hi).shrink rfl (Nat.le_refl _) (Nat.le_refl _) (Nat.zero_le _)

/-- The output is closed. -/
theorem Sound.close (hs : Sound cfg s) (hstage : s.stage = .closing) :
    Sound cfg { s with outlet := s.outlet.close, stage := .returned } := by
  obtain ⟨houtlet, horder, hknown, hbounded⟩ := hs
  rw [hstage] at horder
  cases horder with
  | closing hsent hall =>
      refine ⟨houtlet.close, .returned hsent hall rfl, hknown, fun i hi => ?_⟩
      exact (hbounded i hi).shrink rfl (Nat.le_refl _) (Nat.le_refl _) (Nat.zero_le _)

/-- The consumer of the output takes a step. -/
theorem Sound.consume {c : Consumer} {outlet : Outlet Nat} (hs : Sound cfg s)
    (hact : s.outlet.act c = some outlet) : Sound cfg { s with outlet } := by
  obtain ⟨houtlet, horder, hknown, hbounded⟩ := hs
  obtain ⟨hsent, hshut, hstate, hstop⟩ := Outlet.act_eq_some hact
  refine ⟨houtlet.act hact, ?_, hknown, hbounded⟩
  exact horder.frame rfl rfl (fun _ _ _ h => h) hsent hshut hstate hstop fun hall =>
    houtlet.act_received_all horder.sent_begins hall hact

theorem step_sound (hP : 1 ≤ cfg.producers) (hs : Sound cfg s) (h : Moves cfg s s') :
    Sound cfg s' := by
  cases h with
  | produce _ hx => exact hs.produce hx
  | receive hstage hi hq => exact hs.receive hstage hi hq
  | exhausted hstage hi hexhausted => exact hs.exhausted hstage hi hexhausted
  | send hstage hproduce => exact hs.send hstage hproduce
  | refused hstage hstate => exact hs.refused hstage hstate
  | release hstage => exact hs.release hstage
  | erase hstage hnone => exact Sound.erase hP hs hstage hnone
  | stopQueue hstage => exact hs.stop_queue hstage
  | closeSemaphore hstage => exact hs.close_semaphore hstage
  | drainOut hstage hrunning => exact hs.drain_out hstage hrunning
  | drained hstage hempty => exact hs.drained hstage hempty
  | close hstage => exact hs.close hstage
  | consume _ _ hact => exact hs.consume hact

theorem new_sound (hP : 1 ≤ cfg.producers) : Sound cfg (.new cfg) := by
  have hne : (List.range cfg.producers).map some ≠ [] := by
    simp only [ne_eq, List.map_eq_nil_iff, List.range_eq_nil]
    omega
  have hstage : (State.new cfg).stage = .receiving 0 := if_neg hne
  refine ⟨.new, ?_, fun i hi => ?_, fun i hi => ?_⟩
  · rw [hstage]
    refine .receiving (r := 0) ⟨?_, fun i hi => ?_, fun i hi hle => ?_, fun i hi => ?_, .inl rfl⟩
      (Nat.zero_le _) ?_
    · simp [State.new]
    · have hi : i < cfg.producers := by simpa [State.new] using hi
      simp [State.new, hi]
    · have hle : cfg.producers ≤ i := by simpa [State.new] using hle
      omega
    · refine ⟨0, .acquiring rfl rfl, rfl, nofun, ?_⟩
      rw [hstage]
      simp [State.new, BoundedQueue.new, Producer.holding, Stage.inHand]
    · simp [State.new, Outlet.new, Config.message]
  · simpa [State.new] using hi
  · rw [hstage]
    refine ⟨?_, .inr rfl⟩
    simp [State.new, BoundedQueue.new, Producer.holding, Stage.inHand]

theorem reachable_sound (hP : 1 ≤ cfg.producers) (hs : (system cfg).Reachable s) :
    Sound cfg s := by
  refine hs.invariant ?_ fun s l s' h hstep => step_sound hP h (step_moves hstep)
  rintro s rfl
  exact new_sound hP

end Steps

/-! ## Progress -/

section Progress

variable {cfg : Config} {s s' : State} {i j r : Nat}

/-- A producer whose queue is empty and open can move, since no ticket of the queue is out. -/
theorem Feeding.not_stuck {x : Lane} {taken : Nat} (h : Feeding cfg i taken 0 0 x)
    (hb : 1 ≤ cfg.bufferSize) (hb' : cfg.bufferSize < 2 ^ 63) :
    x.queue.exhausted = true ∨ ∃ l, (Lineariser.produce cfg i l x).isSome = true := by
  obtain ⟨hfeeds, hbuffered, -, htickets⟩ := h
  have hempty : x.queue.buffered = [] := hbuffered
  rw [ptrdiff_eq hb'] at htickets
  have hexhausted : x.queue.state ≠ .running → x.queue.exhausted = true := fun hstate => by
    simp [BoundedQueue.exhausted, hstate, hempty]
  cases hfeeds with
  | @acquiring q hstate hclosed =>
      by_cases hlt : cfg.message i taken < cfg.messages
      · have hpos : 0 < q.permits := by
          simp only [Producer.holding] at htickets
          omega
        exact .inr
          ⟨.acquire, by simp [Lineariser.produce, hlt, BoundedQueue.acquire, hclosed, hpos]⟩
      · exact .inr ⟨.leave, by simp [Lineariser.produce, hlt]⟩
  | sending hlt hstate hclosed =>
      exact .inr ⟨.send, by simp [Lineariser.produce, BoundedQueue.send, hstate]⟩
  | leaving hall hstate => exact .inr ⟨.drain, rfl⟩
  | draining hall hstate => exact .inl (hexhausted (by rw [hstate]; nofun))
  | closing hall hstate => exact .inl (hexhausted (by rw [hstate]; nofun))
  | done hall hstate => exact .inl (hexhausted (by rw [hstate]; nofun))

/-- The queue whose turn it is yields something, or its producer can move. -/
theorem Active.not_stuck (h : Active cfg s r j) (hb : 1 ≤ cfg.bufferSize)
    (hb' : cfg.bufferSize < 2 ^ 63) (hstage : s.stage = .receiving j)
    (hj : j < s.queues.length) : ∃ l ≠ .consumer .shutdown, (step cfg l s).isSome = true := by
  have hslot : s.queues[j]? = some (some j) := by
    rw [h.slot j hj, if_neg fun h => Nat.lt_irrefl j h.1]
  have hlane : j < cfg.producers := hj.trans_le h.length
  obtain ⟨n, hfeeding⟩ := h.feeding j hslot
  rw [hstage] at hfeeding
  cases n with
  | succ n =>
      have hbuffered := hfeeding.buffered
      rw [List.range'_succ, List.map_cons] at hbuffered
      exact ⟨.receive, nofun, by simp [step, hstage, hslot, BoundedQueue.receive, hbuffered]⟩
  | zero =>
      rcases hfeeding.not_stuck hb hb' with hexhausted | ⟨l, hl⟩
      · exact ⟨.exhausted, nofun, by simp [step, hstage, hslot, hexhausted]⟩
      · exact ⟨.producer j l, nofun, by simp [step, hlane, hl]⟩

/-- Until the consumer has seen the end or shut the channel down, something can happen. -/
theorem Sound.not_stuck (hs : Sound cfg s) (hb : 1 ≤ cfg.bufferSize)
    (hb' : cfg.bufferSize < 2 ^ 63) (hended : s.outlet.ended = false)
    (hshut : s.outlet.shut = false) :
    ∃ l ≠ .consumer .shutdown, (step cfg l s).isSome = true := by
  cases hbuffered : s.outlet.ring.buffered with
  | cons m rest =>
      exact ⟨.consumer .receive, (fun h => by cases h), by
        simp [step, hended, hshut, Outlet.act, Ring.consume, hbuffered]⟩
  | nil =>
      by_cases hstate : s.outlet.ring.state = .running
      · have horder := hs.order
        generalize hstage : s.stage = stage at horder
        cases horder with
        | @receiving r j hactive hj =>
            rcases Nat.lt_or_ge j s.queues.length with hlt | hge
            · exact hactive.not_stuck hb hb' hstage hlt
            · have hnone := List.getElem?_eq_none hge
              exact ⟨.erase, (fun h => by cases h), by simp [step, hstage, hnone]⟩
        | sending =>
            exact ⟨.send, (fun h => by cases h), by
              simp [step, hstage, Outlet.produce, Ring.produce, hstate, hbuffered]⟩
        | releasing => exact ⟨.release, (fun h => by cases h), by simp [step, hstage]⟩
        | shuttingDown => exact ⟨.drainOut, (fun h => by cases h), by simp [step, hstage, hstate]⟩
        | closing => exact ⟨.close, (fun h => by cases h), by simp [step, hstage]⟩
        | returned hsent hall hstopped =>
            rw [hstate] at hstopped
            cases hstopped
      · exact ⟨.consumer .finish, (fun h => by cases h), by
          simp [step, hended, hshut, Outlet.act, Ring.exhausted, hbuffered, hstate]⟩

/-- What the consumer has received when it sees the end. -/
theorem Sound.delivered (hs : Sound cfg s) (hended : s.outlet.ended = true)
    (hshut : s.outlet.shut = false) : s.outlet.received = List.range cfg.messages := by
  have hexhausted := hs.outlet.ended hended
  simp only [Ring.exhausted, Bool.and_eq_true, decide_eq_true_eq, List.isEmpty_iff] at hexhausted
  obtain ⟨hstate, hempty⟩ := hexhausted
  have hopen : ¬ s.outlet.shut = true := by
    rw [hshut]
    exact Bool.false_ne_true
  have horder := hs.order
  generalize s.stage = stage at horder
  cases horder with
  | receiving h => exact absurd (h.running.resolve_right hopen) hstate
  | sending h => exact absurd (h.running.resolve_right hopen) hstate
  | releasing h => exact absurd (h.running.resolve_right hopen) hstate
  | shuttingDown hsent hall hstopped =>
      have hne : s.outlet.ring.state ≠ .stopped := fun h => hopen (hstopped h)
      exact (hs.outlet.received_all hne hempty).trans (hall hshut)
  | closing hsent hall => exact hall hshut
  | returned hsent hall => exact hall hshut

/-! ## The number of steps -/

/-- What a producer still does, when a message counts eight steps. -/
def producerWork (cfg : Config) (i : Nat) : Producer → Nat
  | .acquiring k => 8 * (cfg.messages - cfg.message i k) + 5
  | .sending k => 8 * max (cfg.messages - cfg.message i k) 1 + 4
  | .leaving => 3
  | .draining => 2
  | .closing => 1
  | .done => 0

def stateWork : Running → Nat
  | .running => 2
  | .draining => 1
  | .stopped => 0

def laneWork (cfg : Config) (i : Nat) (x : Lane) : Nat :=
  producerWork cfg i x.producer + 6 * x.queue.buffered.length + stateWork x.queue.state +
    (!x.queue.closed).toNat

def stageWork : Stage → Nat
  | .receiving 0 => 3
  | .receiving (_ + 1) => 4
  | .sending _ _ _ => 8
  | .releasing _ _ => 6
  | .shuttingDown => 2
  | .closing => 1
  | .returned => 0

def outletWork (o : Outlet Nat) : Nat :=
  o.ring.buffered.length + stateWork o.ring.state + (!o.ended).toNat + (!o.shut).toNat

/-- A bound on the number of steps that are left. -/
def work (cfg : Config) (s : State) : Nat :=
  (∑ i ∈ Finset.range cfg.producers, laneWork cfg i (s.lanes i)) +
    2 * (s.queues.filter Option.isSome).length + stageWork s.stage + outletWork s.outlet

theorem sum_update {lanes : Nat → Lane} {x : Lane} (hi : i < cfg.producers) :
    (∑ i' ∈ Finset.range cfg.producers, laneWork cfg i' (Function.update lanes i x i')) +
        laneWork cfg i (lanes i) =
      (∑ i' ∈ Finset.range cfg.producers, laneWork cfg i' (lanes i')) + laneWork cfg i x := by
  have hmem : i ∈ Finset.range cfg.producers := Finset.mem_range.mpr hi
  rw [← Finset.add_sum_erase _ _ hmem,
    ← Finset.add_sum_erase _ (fun i' => laneWork cfg i' (lanes i')) hmem, Function.update_self]
  have hrest : ∑ i' ∈ (Finset.range cfg.producers).erase i,
        laneWork cfg i' (Function.update lanes i x i') =
      ∑ i' ∈ (Finset.range cfg.producers).erase i, laneWork cfg i' (lanes i') := by
    refine Finset.sum_congr rfl fun i' hi' => ?_
    rw [Function.update_of_ne (Finset.ne_of_mem_erase hi')]
  rw [hrest]
  omega

theorem produce_work {l : ProducerLabel} {x x' : Lane} (hi : i < cfg.producers)
    (h : produce cfg i l x = some x') : laneWork cfg i x' < laneWork cfg i x := by
  obtain ⟨producer, q⟩ := x
  have hnext : ∀ k, cfg.message i (k + 1) = cfg.message i k + cfg.producers := fun k => by
    unfold Config.message
    rw [Nat.succ_mul]
    omega
  unfold Lineariser.produce at h
  split at h
  case h_1 k hproducer =>
    obtain rfl : producer = _ := hproducer
    split at h
    · next hlt =>
        obtain ⟨q', hq, rfl⟩ := Option.map_eq_some_iff.mp h
        obtain ⟨-, -, rfl⟩ := acquire_eq_some hq
        simp only [laneWork, producerWork]
        omega
    · cases h
  case h_2 hproducer =>
    obtain rfl : producer = _ := hproducer
    split at h
    · cases h
      simp only [laneWork, producerWork]
      omega
    · cases h
  case h_3 k hproducer =>
    obtain rfl : producer = _ := hproducer
    obtain ⟨q', hq, rfl⟩ := Option.map_eq_some_iff.mp h
    obtain ⟨-, rfl⟩ := send_eq_some hq
    have hk := hnext k
    simp only [laneWork, producerWork, List.length_append, List.length_singleton]
    omega
  case h_4 stop k hproducer =>
    obtain rfl : producer = _ := hproducer
    have hk := hnext k
    split at h
    · cases h
    · cases h
      cases stop
      · simp only [laneWork, producerWork, Bool.false_eq_true, if_false]
        omega
      · simp only [laneWork, producerWork, if_true]
        omega
  case h_5 hproducer =>
    obtain rfl : producer = _ := hproducer
    split at h
    · cases h
    · cases h
      simp only [laneWork, producerWork]
      omega
  case h_6 hproducer =>
    obtain rfl : producer = _ := hproducer
    cases h
    unfold BoundedQueue.drain
    split
    · next hrunning =>
        have hstate : q.state = .running := hrunning
        simp only [laneWork, producerWork, hstate, stateWork]
        omega
    · simp only [laneWork, producerWork]
      omega
  case h_7 hproducer =>
    obtain rfl : producer = _ := hproducer
    split at h
    · cases h
      simp only [laneWork, producerWork, BoundedQueue.stop, List.length_nil, stateWork]
      omega
    · cases h
  case h_8 hproducer =>
    obtain rfl : producer = _ := hproducer
    cases h
    simp only [laneWork, producerWork, BoundedQueue.close, Bool.not_true, Bool.toNat_false]
    omega
  case h_9 => cases h

theorem act_work {o o' : Outlet Nat} {c : Consumer} (hended : o.ended = false)
    (hshut : o.shut = false) (h : o.act c = some o') : outletWork o' < outletWork o := by
  cases c with
  | receive =>
      obtain ⟨⟨m, ring⟩, hring, rfl⟩ := Option.map_eq_some_iff.mp h
      rw [Ring.consume] at hring
      split at hring
      · next x rest hbuffered =>
          cases hring
          simp only [outletWork, hbuffered, List.length_cons]
          omega
      · cases hring
  | finish =>
      simp only [Outlet.act] at h
      split at h
      · cases h
        simp only [outletWork, hended, Bool.not_true, Bool.not_false, Bool.toNat_true,
          Bool.toNat_false]
        omega
      · cases h
  | shutdown =>
      cases h
      simp only [outletWork, Ring.shutdown, List.length_nil, stateWork, hshut, Bool.not_true,
        Bool.not_false, Bool.toNat_true, Bool.toNat_false]
      omega

/-- A queue changes. -/
theorem queue_work (hi : i < cfg.producers) (q : BoundedQueue) :
    (∑ i' ∈ Finset.range cfg.producers, laneWork cfg i' ((onQueue s i q).lanes i')) +
        laneWork cfg i (s.lanes i) =
      (∑ i' ∈ Finset.range cfg.producers, laneWork cfg i' (s.lanes i')) +
        laneWork cfg i ⟨(s.lanes i).producer, q⟩ :=
  sum_update hi

theorem receiving_work (j : Nat) :
    3 ≤ stageWork (.receiving j) ∧ stageWork (.receiving j) ≤ 4 := by
  cases j
  · exact ⟨Nat.le_refl _, Nat.le_succ _⟩
  · exact ⟨Nat.le_succ _, Nat.le_refl _⟩

/-- A queue that is removed. -/
theorem filter_set_none {queues : List (Option Nat)} (h : queues[j]? = some (some i)) :
    ((queues.set j none).filter Option.isSome).length + 1 =
      (queues.filter Option.isSome).length := by
  induction queues generalizing j with
  | nil => cases h
  | cons slot queues ih =>
      cases j with
      | zero =>
          obtain rfl : slot = some i := by simpa using h
          rfl
      | succ j =>
          have hrest := ih (j := j) (by simpa using h)
          rw [List.set_cons_succ, List.filter_cons, List.filter_cons]
          split
          · simp only [List.length_cons]
            omega
          · exact hrest

theorem filter_filter_isSome (queues : List (Option Nat)) :
    (queues.filter Option.isSome).filter Option.isSome = queues.filter Option.isSome := by
  rw [List.filter_filter]
  simp only [Bool.and_self]

/-- Every step leaves less to do. -/
theorem step_work (hs : Sound cfg s) (h : Moves cfg s s') : work cfg s' < work cfg s := by
  cases h with
  | @produce i l x hi hx =>
      have hless := produce_work hi hx
      have hsum := @sum_update cfg i s.lanes x hi
      simp only [work]
      omega
  | @receive i j m q hstage hi hq =>
      obtain ⟨hcons, hsame⟩ := receive_eq_some hq
      have hlane := hs.known i (List.mem_of_getElem? hi)
      have hless : laneWork cfg i ⟨(s.lanes i).producer, q⟩ + 6 =
          laneWork cfg i (s.lanes i) := by
        rw [hsame]
        simp only [laneWork, hcons, List.length_cons]
        omega
      have hsum := queue_work (s := s) hlane q
      have hbefore := receiving_work j
      have hafter : stageWork (.sending j i m) = 8 := rfl
      have hsame' : (onQueue s i q).queues = s.queues ∧ (onQueue s i q).outlet = s.outlet :=
        ⟨rfl, rfl⟩
      rw [work, work, hstage]
      simp only [hsame'.1, hsame'.2, hafter]
      omega
  | @exhausted i j hstage hi =>
      have hbefore := receiving_work j
      have hafter : stageWork (.receiving (j + 1)) = 4 := rfl
      have hfilter := filter_set_none hi
      simp only [work, hstage]
      omega
  | send hstage hproduce =>
      obtain ⟨-, rfl⟩ := Outlet.produce_eq_some hproduce
      simp only [work, hstage, stageWork, outletWork, List.length_append, List.length_singleton]
      omega
  | refused hstage =>
      have hfilter := filter_filter_isSome s.queues
      simp only [work, hstage, stageWork, hfilter]
      omega
  | @release i j hstage =>
      -- a ticket does not count
      have hlanes : ∀ i', laneWork cfg i' ((onQueue s i (s.lanes i).queue.release).lanes i') =
          laneWork cfg i' (s.lanes i') := by
        intro i'
        by_cases heq : i' = i
        · subst heq
          simp only [onQueue, Function.update_self]
          rfl
        · simp only [onQueue, Function.update_of_ne heq]
      simp only [work, hlanes, hstage, stageWork]
      simp only [onQueue]
      omega
  | @erase j hstage hnone =>
      have hfilter := filter_filter_isSome s.queues
      have hless : stageWork (enter (s.queues.filter Option.isSome)) <
          stageWork (.receiving j) := by
        cases j with
        | zero =>
            have hempty : s.queues = [] :=
              List.eq_nil_of_length_eq_zero (Nat.le_zero.mp (List.getElem?_eq_none_iff.mp hnone))
            rw [hempty]
            exact Nat.lt_succ_self 2
        | succ j =>
            unfold enter
            split
            · exact Nat.lt_of_lt_of_le (Nat.lt_succ_self 2) (Nat.le_succ 3)
            · exact Nat.lt_succ_self 3
      simp only [work, hstage, hfilter]
      omega
  | @stopQueue i _ hmem hrunning =>
      have hsum := queue_work (s := s) (hs.known i hmem) (s.lanes i).queue.stop
      have hless : laneWork cfg i ⟨(s.lanes i).producer, (s.lanes i).queue.stop⟩ <
          laneWork cfg i (s.lanes i) := by
        have hstate : 0 < stateWork (s.lanes i).queue.state := by
          cases hstate : (s.lanes i).queue.state with
          | running => exact Nat.succ_pos 1
          | draining => exact Nat.succ_pos 0
          | stopped => exact absurd hstate hrunning
        simp only [laneWork, BoundedQueue.stop, List.length_nil]
        have hzero : stateWork .stopped = 0 := rfl
        omega
      rw [work, work]
      simp only [onQueue] at hsum ⊢
      omega
  | @closeSemaphore i _ hmem hopen =>
      have hsum := queue_work (s := s) (hs.known i hmem) (s.lanes i).queue.close
      have hless : laneWork cfg i ⟨(s.lanes i).producer, (s.lanes i).queue.close⟩ <
          laneWork cfg i (s.lanes i) := by
        simp only [laneWork, BoundedQueue.close, hopen, Bool.not_true, Bool.not_false,
          Bool.toNat_true, Bool.toNat_false]
        omega
      rw [work, work]
      simp only [onQueue] at hsum ⊢
      omega
  | drainOut _ hrunning =>
      simp only [work, outletWork, Outlet.drain, Ring.shutdownDrain, hrunning, if_true, stateWork]
      omega
  | drained hstage =>
      simp only [work, hstage, stageWork]
      omega
  | close hstage =>
      simp only [work, hstage, stageWork, outletWork, Outlet.close, Ring.shutdown, List.length_nil,
        stateWork]
      omega
  | consume hended hshut hact =>
      have hless := act_work hended hshut hact
      simp only [work]
      omega

end Progress

/-- What the lineariser is for: what the consumer receives is a beginning of the sequence, and
all of it when the consumer is told the end and has not shut the channel down; no queue has more
messages in it or in the lineariser's hands than it has tickets; until the consumer is told the
end or shuts the channel down, something other than this shutdown can happen; and no run goes on
forever. -/
theorem restores_order (cfg : Config) (hP : 1 ≤ cfg.producers) :
    (∀ s, (system cfg).Reachable s →
      s.outlet.received <+: List.range cfg.messages ∧
      (s.outlet.ended = true → s.outlet.shut = false →
        s.outlet.received = List.range cfg.messages) ∧
      ∀ i < cfg.producers,
        (s.lanes i).queue.buffered.length + s.stage.inHand i ≤ cfg.bufferSize) ∧
    (1 ≤ cfg.bufferSize → cfg.bufferSize < 2 ^ 63 → ∀ s, (system cfg).Reachable s →
      s.outlet.ended = false → s.outlet.shut = false →
        ∃ l ≠ .consumer .shutdown, (step cfg l s).isSome = true) ∧
    ∀ run : Nat → State, (system cfg).Reachable (run 0) →
      ¬ ∀ n, ∃ l, (system cfg).step (run n) l (run (n + 1)) := by
  refine ⟨fun s hs => ?_, fun hb hb' s hs hended hshut => ?_, fun run hrun => ?_⟩
  · have hsound := reachable_sound hP hs
    refine ⟨hsound.outlet.received_begins.trans hsound.order.sent_begins, hsound.delivered,
      fun i hi => ?_⟩
    obtain ⟨htotal, hnonneg⟩ := hsound.bounded i hi
    have hle := ptrdiff_le cfg.bufferSize
    omega
  · exact (reachable_sound hP hs).not_stuck hb hb' hended hshut
  · exact hrun.not_infinite fun s l s' hs hstep =>
      step_work (reachable_sound hP hs) (step_moves hstep)

/-- Two producers and three messages, with one ticket each. -/
theorem restores_order_two : ∃ s, (system ⟨2, 3, 1⟩).Reachable s ∧ s.outlet.ended = true ∧
    s.outlet.received = [0, 1, 2] := by
  have hrun : ∃ s, [Label.producer 0 .acquire, .producer 0 .send, .producer 1 .acquire,
      .producer 1 .send, .producer 1 .leave, .producer 1 .drain, .receive, .send, .release,
      .producer 0 .acquire, .consumer .receive, .producer 0 .send, .producer 0 .leave,
      .receive, .producer 1 .drained, .send, .release, .erase, .consumer .receive, .receive, .send,
      .release, .exhausted, .erase, .consumer .receive, .producer 0 .drain, .exhausted, .erase,
      .drainOut, .consumer .finish].foldlM (fun s l => step ⟨2, 3, 1⟩ l s) (.new ⟨2, 3, 1⟩) =
        some s ∧ s.outlet.ended = true ∧ s.outlet.shut = false := ⟨_, rfl, rfl, rfl⟩
  obtain ⟨s, hrun, hended, hshut⟩ := hrun
  have hreach : (system ⟨2, 3, 1⟩).Reachable s :=
    (System.Reach.init rfl).exec (fun l _ s₁ s₂ h => ⟨trivial, h⟩) hrun
  exact ⟨s, hreach, hended, ((restores_order ⟨2, 3, 1⟩ (by decide)).1 s hreach).2.1 hended hshut⟩

end Rapidsmpf.Streaming.Lineariser
