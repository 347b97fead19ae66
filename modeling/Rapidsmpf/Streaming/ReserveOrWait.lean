import Mathlib
import Rapidsmpf.Lib.ListFacts
import Rapidsmpf.Lib.Transition
import Rapidsmpf.Memory.Resource

/-!
# Waiting for memory

`MemoryReserveOrWait` of `streaming/core/memory_reserve_or_wait.cpp`. A call of `reserve_or_wait`
that finds no memory inserts a request into `reservation_requests_` and starts a periodic task
unless one is running. The task looks at the set again and again: it admits a request that fits,
or, when no request was admitted for the timeout and no spill gives reason to wait on, it forces
one out. It exits when it finds the set empty, under the same lock under which it clears the flag
`periodic_task_running_`. `shutdown` takes the whole set and the handle of the task.

The steps are the sections under `mutex_` and what a thread does between two of them. What the
clock, the spill manager and the buffer resource answer comes with the label. A failed answer of
the buffer resource is an exception in the source and has no step here.
-/

namespace Rapidsmpf.Streaming.ReserveOrWait

open Protocol Memory ListFacts

/-- `Request`, without the time of its submission. -/
structure Request where
  size : Nat
  netMemoryDelta : Int
  sequenceNumber : Nat
deriving DecidableEq

/-- `operator<`. -/
def Request.Before (a b : Request) : Prop :=
  a.size < b.size ∨ a.size = b.size ∧ a.sequenceNumber < b.sequenceNumber

instance : DecidableRel Request.Before := fun a b =>
  inferInstanceAs
    (Decidable (a.size < b.size ∨ a.size = b.size ∧ a.sequenceNumber < b.sequenceNumber))

/-- `eligible_requests`: the requests that fit. The set is sorted by size. -/
def eligibleRequests (maxSize : Nat) (requests : List Request) : List Request :=
  requests.takeWhile fun r => r.size ≤ maxSize

/-- `std::ranges::min_element` by `net_memory_delta`: the first of the least. -/
def minElement : List Request → Option Request
  | [] => none
  | r :: requests =>
      match minElement requests with
      | none => some r
      | some r' => if r'.netMemoryDelta < r.netMemoryDelta then some r' else some r

/-- The request that is admitted: the least `net_memory_delta` of those that fit. -/
def admissible (maxSize : Nat) (requests : List Request) : Option Request :=
  minElement (eligibleRequests maxSize requests)

/-- The request that is forced out: the least `net_memory_delta` of the smallest ones. -/
def smallest (requests : List Request) : Option Request :=
  match requests with
  | [] => none
  | first :: rest => minElement (eligibleRequests first.size (first :: rest))

/-- What the queue of a request is given. -/
inductive Outcome where
  | admitted (size : Nat)
  | forced (size : Nat)
  | shutDown
deriving DecidableEq

/-- `SPILL_WAIT_CAP_FACTOR`. -/
def spillWaitCapFactor : Int := 10

structure Config where
  timeout : Int
  memType : MemoryType

/-- The locals of the inner loop. -/
structure Window where
  lastReservationSuccess : Int
  extendedAt : Option Int
  recheckAfterSpill : Bool
  spillStalled : Bool
  extendGeneration : Nat
  extendAvailable : Int

/-- The locals at the start of the outer loop. -/
def Window.start (now : Int) : Window := ⟨now, none, false, false, 0, 0⟩

/-- The locals after a request was admitted. -/
def Window.admitted (w : Window) (now : Int) : Window :=
  { w with lastReservationSuccess := now, extendedAt := none, recheckAfterSpill := false,
           spillStalled := false }

/-- What the clock, the spill manager and the buffer resource say in one pass. -/
structure Observation where
  now : Int
  spillGeneration : Nat
  available : Int
  spillingNow : Bool

/-- A spill that completed during the extension must have freed memory. -/
def Window.judge (w : Window) (obs : Observation) : Window :=
  if w.extendedAt.isSome = true ∧ w.spillStalled = false ∧
      obs.spillGeneration ≠ w.extendGeneration then
    { w with
      spillStalled := decide (obs.available ≤ w.extendAvailable)
      extendGeneration := obs.spillGeneration
      extendAvailable := obs.available }
  else w

/-- Whether the task waits on for a spill. -/
def Window.keepWaiting (cfg : Config) (w : Window) (obs : Observation) : Prop :=
  cfg.memType = .device ∧ w.spillStalled = false ∧
    obs.now - w.lastReservationSuccess ≤ (1 + spillWaitCapFactor) * cfg.timeout ∧
    obs.spillingNow = true

instance (cfg : Config) (w : Window) (obs : Observation) : Decidable (w.keepWaiting cfg obs) :=
  inferInstanceAs (Decidable (_ ∧ _))

/-- The locals after the check of the timeout, or nothing when the inner loop is left. -/
def Window.pass (cfg : Config) (w : Window) (obs : Observation) : Option Window :=
  if cfg.timeout < obs.now - w.lastReservationSuccess then
    let w := w.judge obs
    if w.keepWaiting cfg obs then
      match w.extendedAt with
      | some _ => some { w with recheckAfterSpill := true }
      | none => some { w with
          extendedAt := some obs.now
          extendGeneration := obs.spillGeneration
          extendAvailable := obs.available
          recheckAfterSpill := true }
    else if w.recheckAfterSpill then some { w with recheckAfterSpill := false }
    else none
  else some w

/-- Where a periodic task is. -/
inductive Task where
  /-- Before the outer loop. -/
  | starting
  /-- Before the check whether requests remain. -/
  | top (w : Window)
  | yielding (w : Window)
  | reading (w : Window)
  | admitting (w : Window) (maxSize : Nat)
  /-- A request is extracted with its reservation, and not yet pushed. -/
  | admitted (w : Window) (r : Request) (size : Nat)
  /-- The timeout is reached. -/
  | forcing
  /-- A request is extracted, and not yet pushed. -/
  | forced (r : Request)
  /-- The flag is cleared. -/
  | finishing
  | finished

/-- Where a call of `reserve_or_wait` is. -/
inductive Caller where
  | inserting (size : Nat) (netMemoryDelta : Int)
  /-- Awaits a previous periodic task. -/
  | joining (r : Request) (task : Nat)
  | popping (r : Request)
  | returned (size : Nat)
  /-- memory reservation failed -/
  | failed

/-- Where a call of `shutdown` is. -/
inductive Shutdown where
  | closing (requests : List Request) (task : Option Nat)
  | joining (task : Nat)
  | returned

/-- The state. `inserted` and `removed` are what was ever inserted into the set and removed from
it, `answers` what the queues were given. The sequence counter is a `std::uint64_t`: there are fewer
than `2 ^ 64` requests, so it does not wrap. -/
structure State where
  requests : List Request
  sequenceCounter : Nat
  periodicTask : Option Nat
  taskRunning : Bool
  tasks : List Task
  callers : List Caller
  shutdowns : List Shutdown
  pushes : List (Request × Outcome)
  answers : List (Request × Outcome)
  inserted : List Request
  removed : List Request

inductive TaskLabel where
  | start (now : Int)
  | look
  | pass (obs : Observation)
  | read (available : Int)
  | admission (available : Int) (reserved : Nat)
  | push (now : Int)
  | force
  | reserveForced (available : Int) (reserved : Nat)
  | finish

inductive Label where
  | call (size : Nat) (netMemoryDelta : Int) (available : Int) (reserved : Nat)
  | insert (i : Nat)
  | join (i : Nat)
  | pop (i : Nat)
  | task (i : Nat) (l : TaskLabel)
  | pushed (k : Nat)
  | shutdown
  | shut (i k : Nat)
  | shutJoin (i : Nat)
  | shutReturn (i : Nat)

/-- The section of `reserve_or_wait` under the lock. -/
def insert (s : State) (i size : Nat) (netMemoryDelta : Int) : State :=
  let r : Request := ⟨size, netMemoryDelta, s.sequenceCounter⟩
  let s := { s with
    requests := s.requests.orderedInsert Request.Before r
    inserted := s.inserted ++ [r]
    sequenceCounter := s.sequenceCounter + 1 }
  if s.taskRunning then { s with callers := s.callers.set i (.popping r) }
  else { s with
    callers := s.callers.set i
      (match s.periodicTask with
        | some previous => .joining r previous
        | none => .popping r)
    periodicTask := some s.tasks.length
    tasks := s.tasks ++ [.starting]
    taskRunning := true }

/-- The task `i` extracts a request. -/
def extract (s : State) (i : Nat) (r : Request) (t : Task) : State :=
  { s with
    requests := s.requests.erase r
    removed := s.removed ++ [r]
    tasks := s.tasks.set i t }

/-- A step of the periodic task `i`. -/
def taskStep (cfg : Config) (s : State) (i : Nat) (l : TaskLabel) (t : Task) : Option State :=
  match l, t with
  | .start now, .starting => some { s with tasks := s.tasks.set i (.top (.start now)) }
  | .look, .top w =>
      if s.requests = [] then
        some { s with taskRunning := false, tasks := s.tasks.set i .finishing }
      else some { s with tasks := s.tasks.set i (.yielding w) }
  | .pass obs, .yielding w =>
      match w.pass cfg obs with
      | some w => some { s with tasks := s.tasks.set i (.reading w) }
      | none => some { s with tasks := s.tasks.set i .forcing }
  | .read available, .reading w =>
      some { s with tasks := s.tasks.set i (.admitting w available.toNat) }
  | .admission available reserved, .admitting w maxSize =>
      match admissible maxSize s.requests with
      -- no eligible requests
      | none => some { s with tasks := s.tasks.set i (.top w) }
      | some r =>
          match decideReserve available reserved r.size .no with
          | .ok (granted, _) =>
              -- memory is no longer available
              if granted = 0 then some { s with tasks := s.tasks.set i (.top w) }
              else some (extract s i r (.admitted w r granted))
          | .error _ => none
  | .push now, .admitted w r size => some { s with
      pushes := s.pushes ++ [(r, .admitted size)]
      tasks := s.tasks.set i (.top (w.admitted now)) }
  | .force, .forcing =>
      match smallest s.requests with
      | none => some { s with taskRunning := false, tasks := s.tasks.set i .finishing }
      | some r => some (extract s i r (.forced r))
  | .reserveForced available reserved, .forced r =>
      match decideReserve available reserved r.size .no with
      | .ok (granted, _) => some { s with
          pushes := s.pushes ++ [(r, .forced granted)]
          tasks := s.tasks.set i .starting }
      | .error _ => none
  | .finish, .finishing => some { s with tasks := s.tasks.set i .finished }
  | _, _ => none

def step (cfg : Config) (l : Label) (s : State) : Option State :=
  match l with
  | .call size netMemoryDelta available reserved =>
      match decideReserve available reserved size .no with
      | .ok (granted, _) => some { s with
          callers := s.callers ++
            [if granted = size then .returned size else .inserting size netMemoryDelta] }
      | .error _ => none
  | .insert i =>
      match s.callers[i]? with
      | some (.inserting size netMemoryDelta) => some (insert s i size netMemoryDelta)
      | _ => none
  | .join i =>
      match s.callers[i]? with
      | some (.joining r previous) =>
          match s.tasks[previous]? with
          | some .finished => some { s with callers := s.callers.set i (.popping r) }
          | _ => none
      | _ => none
  | .pop i =>
      match s.callers[i]? with
      | some (.popping r) =>
          match s.answers.find? (fun x => x.1 = r) with
          | some (_, .admitted size) => some { s with callers := s.callers.set i (.returned size) }
          | some (_, .forced size) => some { s with callers := s.callers.set i (.returned size) }
          | some (_, .shutDown) => some { s with callers := s.callers.set i .failed }
          | none => none
      | _ => none
  | .task i l =>
      match s.tasks[i]? with
      | some t => taskStep cfg s i l t
      | none => none
  | .pushed k =>
      match s.pushes[k]? with
      | some (r, outcome) =>
          -- a queue that was shut down takes nothing
          if (r, Outcome.shutDown) ∈ s.answers then some { s with pushes := s.pushes.eraseIdx k }
          else some { s with
            pushes := s.pushes.eraseIdx k, answers := s.answers ++ [(r, outcome)] }
      | none => none
  | .shutdown => some { s with
      requests := []
      removed := s.removed ++ s.requests
      periodicTask := none
      shutdowns := s.shutdowns ++ [.closing s.requests s.periodicTask] }
  | .shut i k =>
      match s.shutdowns[i]? with
      | some (.closing requests task) =>
          match requests[k]? with
          | some r => some { s with
              answers := s.answers ++ [(r, .shutDown)]
              shutdowns := s.shutdowns.set i (.closing (requests.eraseIdx k) task) }
          | none => none
      | _ => none
  | .shutJoin i =>
      match s.shutdowns[i]? with
      | some (.closing [] (some task)) =>
          some { s with shutdowns := s.shutdowns.set i (.joining task) }
      | some (.closing [] none) => some { s with shutdowns := s.shutdowns.set i .returned }
      | _ => none
  | .shutReturn i =>
      match s.shutdowns[i]? with
      | some (.joining task) =>
          match s.tasks[task]? with
          | some .finished => some { s with shutdowns := s.shutdowns.set i .returned }
          | _ => none
      | _ => none

/-- A new instance. -/
def State.new : State := ⟨[], 0, none, false, [], [], [], [], [], [], []⟩

def system (cfg : Config) : System State Label where
  init s := s = .new
  step s l s' := step cfg l s = some s'

section Selection

variable {requests : List Request} {r : Request} {maxSize : Nat}

theorem min_element_mem (h : minElement requests = some r) : r ∈ requests := by
  induction requests with
  | nil => cases h
  | cons first requests ih =>
      simp only [minElement] at h
      split at h
      · cases h
        exact List.mem_cons_self
      · next r' hrest =>
          split at h
          · cases h
            exact List.mem_cons_of_mem _ (ih hrest)
          · cases h
            exact List.mem_cons_self

theorem min_element_eq_none (h : minElement requests = none) : requests = [] := by
  cases requests with
  | nil => rfl
  | cons first requests =>
      simp only [minElement] at h
      split at h
      · cases h
      · split at h
        · cases h
        · cases h

theorem admissible_mem (h : admissible maxSize requests = some r) : r ∈ requests :=
  (List.takeWhile_prefix _).subset (min_element_mem h)

theorem smallest_mem (h : smallest requests = some r) : r ∈ requests := by
  unfold smallest at h
  split at h
  · cases h
  · exact (List.takeWhile_prefix _).subset (min_element_mem h)

theorem smallest_eq_none (h : smallest requests = none) : requests = [] := by
  unfold smallest at h
  split at h
  · rfl
  · next first rest =>
      have hnone := min_element_eq_none h
      rw [eligibleRequests, List.takeWhile_cons_of_pos (by simp)] at hnone
      cases hnone

end Selection

/-- The request a task has extracted and not yet pushed. -/
def Task.held : Task → List Request
  | .admitted _ r _ => [r]
  | .forced r => [r]
  | _ => []

/-- The requests a shutdown has taken and whose queues it has not yet shut down. -/
def Shutdown.held : Shutdown → List Request
  | .closing requests _ => requests
  | _ => []

/-- A task that will look at the set again. -/
def Task.Live : Task → Prop
  | .finishing => False
  | .finished => False
  | _ => True

/-- The outcomes a request may have. -/
def Outcome.Answers (r : Request) : Outcome → Prop
  | .admitted size => size = r.size
  | .forced size => size = r.size ∨ size = 0
  | .shutDown => True

/-- A reservation is of the size of its request. -/
def Task.Fits : Task → Prop
  | .admitted _ r size => size = r.size
  | _ => True

/-- What a step of a periodic task does to the state. -/
inductive TaskEffect (s : State) (i : Nat) (t : Task) : State → Prop where
  | move {t' : Task} (hheld : t.held = []) (hheld' : t'.held = []) (hlive : t'.Live ↔ t.Live)
      (hfits : t'.Fits) : TaskEffect s i t { s with tasks := s.tasks.set i t' }
  | exit (hheld : t.held = []) (hlive : t.Live) (hempty : s.requests = []) :
      TaskEffect s i t { s with taskRunning := false, tasks := s.tasks.set i .finishing }
  | extract {r : Request} {t' : Task} (hheld : t.held = []) (hr : r ∈ s.requests)
      (hheld' : t'.held = [r]) (hlive : t.Live) (hlive' : t'.Live) (hfits : t'.Fits) :
      TaskEffect s i t (extract s i r t')
  | push {r : Request} {outcome : Outcome} {t' : Task} (hheld : t.held = [r])
      (hheld' : t'.held = []) (hlive : t.Live) (hlive' : t'.Live) (hfits : t'.Fits)
      (houtcome : outcome.Answers r) :
      TaskEffect s i t
        { s with pushes := s.pushes ++ [(r, outcome)], tasks := s.tasks.set i t' }

theorem reserve_granted {available : Int} {reserved size granted overbooking : Nat}
    (h : decideReserve available reserved size .no = .ok (granted, overbooking)) :
    granted = size ∨ granted = 0 :=
  (decide_reserve_eq_ok h).2.imp And.left And.left

theorem taskStep_effect {cfg : Config} {s s' : State} {i : Nat} {l : TaskLabel} {t : Task}
    (hfits : t.Fits) (h : taskStep cfg s i l t = some s') : TaskEffect s i t s' := by
  unfold taskStep at h
  split at h
  case h_1 =>
    cases h
    exact .move rfl rfl Iff.rfl trivial
  case h_2 =>
    split at h
    · next hempty =>
        cases h
        exact .exit rfl trivial hempty
    · cases h
      exact .move rfl rfl Iff.rfl trivial
  case h_3 =>
    split at h
    · cases h
      exact .move rfl rfl Iff.rfl trivial
    · cases h
      exact .move rfl rfl Iff.rfl trivial
  case h_4 =>
    cases h
    exact .move rfl rfl Iff.rfl trivial
  case h_5 =>
    split at h
    · cases h
      exact .move rfl rfl Iff.rfl trivial
    · next r hr =>
        split at h
        · next granted overbooking hreserve =>
            split at h
            · cases h
              exact .move rfl rfl Iff.rfl trivial
            · next hpos =>
                cases h
                exact .extract rfl (admissible_mem hr) rfl trivial trivial
                  ((reserve_granted hreserve).resolve_right hpos)
        · cases h
  case h_6 =>
    cases h
    exact .push rfl rfl trivial trivial trivial hfits
  case h_7 =>
    split at h
    · next hnone =>
        cases h
        exact .exit rfl trivial (smallest_eq_none hnone)
    · next r hr =>
        cases h
        exact .extract rfl (smallest_mem hr) rfl trivial trivial trivial
  case h_8 =>
    split at h
    · next hreserve =>
        cases h
        exact .push rfl rfl trivial trivial trivial (reserve_granted hreserve)
    · cases h
  case h_9 =>
    cases h
    exact .move rfl rfl Iff.rfl trivial
  case h_10 => cases h

section Serving

/-- There is one task that will look at the set again while the flag is set, and none otherwise;
and the flag is set while requests are pending. -/
structure Serving (s : State) : Prop where
  running : s.taskRunning = true → ∃ (i : Nat) (t : Task), s.tasks[i]? = some t ∧ t.Live
  idle : s.taskRunning = false → ∀ (i : Nat) (t : Task), s.tasks[i]? = some t → ¬ t.Live
  single : ∀ (i j : Nat) (t t' : Task), s.tasks[i]? = some t → t.Live →
    s.tasks[j]? = some t' → t'.Live → i = j
  pending : s.requests ≠ [] → s.taskRunning = true

variable {s s' : State} {i : Nat} {t t' : Task}

/-- A task that goes on, whatever else the step does. -/
theorem Serving.set (hs : Serving s) (hi : s.tasks[i]? = some t) (hlive : t'.Live ↔ t.Live)
    (htasks : s'.tasks = s.tasks.set i t') (hflag : s'.taskRunning = s.taskRunning)
    (hpending : s'.requests ≠ [] → s.requests ≠ []) : Serving s' := by
  have hlt : i < s.tasks.length := (List.getElem?_eq_some_iff.mp hi).1
  have hback : ∀ (j : Nat) (x : Task), s'.tasks[j]? = some x → x.Live →
      ∃ y, s.tasks[j]? = some y ∧ y.Live := by
    intro j x hj hx
    rw [htasks] at hj
    rcases getElem?_set_cases hi hj with ⟨rfl, rfl⟩ | ⟨-, hj⟩
    · exact ⟨t, hi, hlive.mp hx⟩
    · exact ⟨x, hj, hx⟩
  refine ⟨fun hrunning => ?_, fun hidle j x hj hx => ?_, fun j k x y hj hx hk hy => ?_, fun h => ?_⟩
  · obtain ⟨j, x, hj, hx⟩ := hs.running (hflag ▸ hrunning)
    by_cases hji : j = i
    · subst hji
      cases hi.symm.trans hj
      exact ⟨j, t', by rw [htasks, List.getElem?_set_self hlt], hlive.mpr hx⟩
    · exact ⟨j, x, by rw [htasks, List.getElem?_set_ne (Ne.symm hji), hj], hx⟩
  · obtain ⟨y, hy, hylive⟩ := hback j x hj hx
    exact hs.idle (hflag ▸ hidle) j y hy hylive
  · obtain ⟨x', hx', hxlive⟩ := hback j x hj hx
    obtain ⟨y', hy', hylive⟩ := hback k y hk hy
    exact hs.single j k x' y' hx' hxlive hy' hylive
  · rw [hflag]
    exact hs.pending (hpending h)

/-- Steps that leave the tasks and the flag alone. -/
theorem Serving.frame (hs : Serving s) (htasks : s'.tasks = s.tasks)
    (hflag : s'.taskRunning = s.taskRunning) (hpending : s'.requests ≠ [] → s.requests ≠ []) :
    Serving s' where
  running h := htasks ▸ hs.running (hflag ▸ h)
  idle h := htasks ▸ hs.idle (hflag ▸ h)
  single := htasks ▸ hs.single
  pending h := hflag ▸ hs.pending (hpending h)

/-- The task that clears the flag was the only one. -/
theorem Serving.exit (hs : Serving s) (hi : s.tasks[i]? = some t) (hlive : t.Live)
    (hempty : s.requests = []) :
    Serving { s with taskRunning := false, tasks := s.tasks.set i .finishing } := by
  have hnone : ∀ (j : Nat) (x : Task), (s.tasks.set i .finishing)[j]? = some x → ¬ x.Live := by
    intro j x hj hx
    rcases getElem?_set_cases hi hj with ⟨rfl, rfl⟩ | ⟨hji, hj⟩
    · exact hx
    · exact hji (hs.single j i x t hj hx hi hlive)
  exact ⟨nofun, fun _ => hnone, fun j _ x _ hj hx => absurd hx (hnone j x hj),
    fun h => absurd hempty h⟩

theorem Serving.effect (hs : Serving s) (hi : s.tasks[i]? = some t) (h : TaskEffect s i t s') :
    Serving s' := by
  cases h with
  | move hheld hheld' hlive hfits => exact hs.set hi hlive rfl rfl id
  | exit hheld hlive hempty => exact hs.exit hi hlive hempty
  | extract hheld hr hheld' hlive hlive' hfits =>
      refine hs.set hi (iff_of_true hlive' hlive) rfl rfl fun _ => ?_
      exact List.ne_nil_of_mem hr
  | push hheld hheld' hlive hlive' hfits houtcome =>
      exact hs.set hi (iff_of_true hlive' hlive) rfl rfl id

/-- A call starts a task where none is running. -/
theorem Serving.insert (hs : Serving s) (size : Nat) (netMemoryDelta : Int) :
    Serving (insert s i size netMemoryDelta) := by
  unfold ReserveOrWait.insert
  dsimp only
  split
  · next hrunning =>
      exact ⟨hs.running, hs.idle, hs.single, fun _ => hrunning⟩
  · next hidle =>
      have hnone := hs.idle (Bool.eq_false_iff.mpr hidle)
      have hlast : ∀ (j : Nat) (x : Task), (s.tasks ++ [Task.starting])[j]? = some x → x.Live →
          j = s.tasks.length := by
        intro j x hj hx
        rw [List.getElem?_append] at hj
        split at hj
        · exact absurd hx (hnone j x hj)
        · have hlt := (List.getElem?_eq_some_iff.mp hj).1
          simp only [List.length_singleton] at hlt
          omega
      refine ⟨fun _ => ⟨s.tasks.length, .starting, ?_, trivial⟩, nofun, ?_, fun _ => rfl⟩
      · exact List.getElem?_concat_length
      · intro j k x y hj hx hk hy
        exact (hlast j x hj hx).trans (hlast k y hk hy).symm

end Serving

section Ledger

/-- How often the queue of a request was given something. -/
def State.answered (s : State) (r : Request) : Nat :=
  (s.answers.map Prod.fst).count r

/-- How often a request is between its removal from the set and its answer. -/
def State.underway (s : State) (r : Request) : Nat :=
  (s.pushes.map Prod.fst).count r + (s.tasks.map fun t => t.held.count r).sum +
    (s.shutdowns.map fun x => x.held.count r).sum

/-- Every request that was inserted is in the set or was removed from it, and what was removed is
answered or about to be. -/
structure Ledger (s : State) : Prop where
  set : ∀ r, s.requests.count r + s.removed.count r = s.inserted.count r
  out : ∀ r, s.answered r + s.underway r = s.removed.count r
  numbered : s.inserted.map Request.sequenceNumber = List.range s.sequenceCounter

variable {s s' : State} {i : Nat} {t t' : Task} {r : Request}

theorem Ledger.nodup (hs : Ledger s) : s.inserted.Nodup := by
  refine List.Nodup.of_map Request.sequenceNumber ?_
  rw [hs.numbered]
  exact List.nodup_range

theorem Ledger.count_le_one (hs : Ledger s) (r : Request) : s.inserted.count r ≤ 1 :=
  List.nodup_iff_count_le_one.mp hs.nodup r

/-- What a request counts in the hands of the tasks, when one of them goes on. -/
theorem held_set (hi : s.tasks[i]? = some t) (t' : Task) (r : Request) :
    ((s.tasks.set i t').map fun t => t.held.count r).sum + t.held.count r =
      (s.tasks.map fun t => t.held.count r).sum + t'.held.count r :=
  sum_map_set hi (fun t => t.held.count r) t'

theorem Ledger.effect (hs : Ledger s) (hi : s.tasks[i]? = some t) (h : TaskEffect s i t s') :
    Ledger s' := by
  cases h with
  | @move t' hheld hheld' hlive hfits =>
      refine ⟨hs.set, fun r => ?_, hs.numbered⟩
      have hsum := held_set hi t' r
      have hout := hs.out r
      rw [hheld, hheld'] at hsum
      simp only [State.answered, State.underway] at hout ⊢
      omega
  | exit hheld hlive hempty =>
      refine ⟨hs.set, fun r => ?_, hs.numbered⟩
      have hsum := held_set hi .finishing r
      have hout := hs.out r
      have hnone : Task.finishing.held = [] := rfl
      rw [hheld, hnone] at hsum
      simp only [State.answered, State.underway] at hout ⊢
      omega
  | @extract r t' hheld hr hheld' hlive hlive' hfits =>
      have hperm := List.perm_cons_erase hr
      refine ⟨fun r' => ?_, fun r' => ?_, hs.numbered⟩
      · have hset := hs.set r'
        rw [hperm.count_eq r', List.count_cons] at hset
        simp only [ReserveOrWait.extract, List.count_append, List.count_singleton]
        omega
      · have hsum := held_set hi t' r'
        have hout := hs.out r'
        rw [hheld, hheld', List.count_nil] at hsum
        simp only [ReserveOrWait.extract, State.answered, State.underway,
          List.count_append] at hout ⊢
        omega
  | @push r outcome t' hheld hheld' hlive hlive' hfits houtcome =>
      refine ⟨hs.set, fun r' => ?_, hs.numbered⟩
      have hsum := held_set hi t' r'
      have hout := hs.out r'
      rw [hheld, hheld', List.count_nil] at hsum
      simp only [State.answered, State.underway, List.map_append, List.map_singleton,
        List.count_append] at hout ⊢
      omega

/-- Steps that leave the requests and their outcomes alone. -/
theorem Ledger.frame (hs : Ledger s) (hrequests : s'.requests = s.requests)
    (hremoved : s'.removed = s.removed) (hinserted : s'.inserted = s.inserted)
    (hcounter : s'.sequenceCounter = s.sequenceCounter)
    (hout : ∀ r, s'.answered r + s'.underway r = s.answered r + s.underway r) : Ledger s' where
  set r := by
    rw [hrequests, hremoved, hinserted]
    exact hs.set r
  out r := by
    rw [hout, hremoved]
    exact hs.out r
  numbered := by
    rw [hinserted, hcounter]
    exact hs.numbered

theorem Ledger.insert (hs : Ledger s) (size : Nat) (netMemoryDelta : Int) :
    Ledger (insert s i size netMemoryDelta) := by
  have hset : ∀ r' r : Request,
      (s.requests.orderedInsert Request.Before r).count r' + s.removed.count r' =
        (s.inserted ++ [r]).count r' := by
    intro r' r
    have hset := hs.set r'
    rw [(List.perm_orderedInsert Request.Before r s.requests).count_eq, List.count_cons,
      List.count_append, List.count_singleton]
    omega
  have hnumbered : ∀ r : Request, r.sequenceNumber = s.sequenceCounter →
      (s.inserted ++ [r]).map Request.sequenceNumber = List.range (s.sequenceCounter + 1) := by
    intro r hr
    rw [List.map_append, hs.numbered, List.map_singleton, hr, List.range_succ]
  unfold ReserveOrWait.insert
  dsimp only
  split
  · exact ⟨fun r' => hset r' _, hs.out, hnumbered _ rfl⟩
  · refine ⟨fun r' => hset r' _, fun r' => ?_, hnumbered _ rfl⟩
    have hout := hs.out r'
    simpa [State.answered, State.underway, Task.held] using hout

/-- A shutdown takes what is pending. -/
theorem Ledger.shutdown (hs : Ledger s) :
    Ledger { s with
      requests := []
      removed := s.removed ++ s.requests
      periodicTask := none
      shutdowns := s.shutdowns ++ [.closing s.requests s.periodicTask] } := by
  refine ⟨fun r => ?_, fun r => ?_, hs.numbered⟩
  · have hset := hs.set r
    simp only [List.count_nil, List.count_append]
    omega
  · have hout := hs.out r
    simp only [State.answered, State.underway, List.map_append, List.sum_append,
      List.map_singleton, List.sum_singleton, Shutdown.held, List.count_append] at hout ⊢
    omega

/-- A request whose push is underway has no outcome yet, so its queue was not shut down. -/
theorem Ledger.push_accepted (hs : Ledger s) {k : Nat} {outcome : Outcome}
    (hk : s.pushes[k]? = some (r, outcome)) : s.answered r = 0 := by
  have hmem : r ∈ s.pushes.map Prod.fst := List.mem_map.mpr ⟨_, List.mem_of_getElem? hk, rfl⟩
  have hpos := List.count_pos_iff.mpr hmem
  have hset := hs.set r
  have hout := hs.out r
  have hone := hs.count_le_one r
  simp only [State.underway] at hout
  omega

/-- A push gives its request an outcome. -/
theorem Ledger.pushed (hs : Ledger s) {k : Nat} {outcome : Outcome}
    (hk : s.pushes[k]? = some (r, outcome)) :
    Ledger { s with
      pushes := s.pushes.eraseIdx k, answers := s.answers ++ [(r, outcome)] } := by
  refine hs.frame rfl rfl rfl rfl fun r' => ?_
  have hk' : (s.pushes.map Prod.fst)[k]? = some r := by rw [List.getElem?_map, hk]; rfl
  have hcount := count_eraseIdx hk' r'
  rw [List.eraseIdx_map] at hcount
  simp only [State.answered, State.underway, List.map_append, List.map_singleton,
    List.count_append, List.count_singleton, beq_iff_eq]
  omega

/-- A shutdown of its queue is the outcome of a request. -/
theorem Ledger.shut (hs : Ledger s) {k : Nat} {requests : List Request} {task : Option Nat}
    (hi : s.shutdowns[i]? = some (.closing requests task)) (hk : requests[k]? = some r) :
    Ledger { s with
      answers := s.answers ++ [(r, .shutDown)]
      shutdowns := s.shutdowns.set i (.closing (requests.eraseIdx k) task) } := by
  refine hs.frame rfl rfl rfl rfl fun r' => ?_
  have hcount := count_eraseIdx hk r'
  have hsum : ((s.shutdowns.set i (.closing (requests.eraseIdx k) task)).map
      fun x => x.held.count r').sum + requests.count r' =
        (s.shutdowns.map fun x => x.held.count r').sum + (requests.eraseIdx k).count r' :=
    sum_map_set hi (fun x => x.held.count r') _
  simp only [State.answered, State.underway, List.map_append, List.map_singleton,
    List.count_append, List.count_singleton, beq_iff_eq]
  omega

/-- A shutdown that holds nothing any more goes on. -/
theorem Ledger.shut_over (hs : Ledger s) {x x' : Shutdown} (hi : s.shutdowns[i]? = some x)
    (hx : x.held = []) (hx' : x'.held = []) :
    Ledger { s with shutdowns := s.shutdowns.set i x' } := by
  refine hs.frame rfl rfl rfl rfl fun r' => ?_
  have hsum := sum_map_set hi (fun x => x.held.count r') x'
  rw [hx, hx'] at hsum
  simp only [State.answered, State.underway]
  omega

end Ledger

section Genuine

/-- A size that `reserve` can count. -/
def Countable (size : Nat) : Prop :=
  0 < size ∧ size < 2 ^ 63

/-- A call that goes on to insert a request. -/
def Caller.Asks : Caller → Prop
  | .inserting size _ => Countable size
  | _ => True

/-- The sizes are those of calls that found no memory, and the outcomes are of the right size. -/
structure Genuine (s : State) : Prop where
  callers : ∀ c ∈ s.callers, c.Asks
  inserted : ∀ r ∈ s.inserted, Countable r.size
  tasks : ∀ t ∈ s.tasks, t.Fits
  pushes : ∀ x ∈ s.pushes, x.2.Answers x.1
  answers : ∀ x ∈ s.answers, x.2.Answers x.1

variable {s s' : State} {i : Nat} {t t' : Task} {r : Request}

theorem reserve_countable {available : Int} {reserved size granted overbooking : Nat}
    (h : decideReserve available reserved size .no = .ok (granted, overbooking))
    (hless : granted ≠ size) : Countable size := by
  have hzero := (reserve_granted h).resolve_left hless
  refine ⟨Nat.pos_of_ne_zero fun hsize => hless (hzero.trans hsize.symm), ?_⟩
  rw [decideReserve] at h
  obtain ⟨_, -, h⟩ := Fallible.bind_eq_ok.mp h
  obtain ⟨_, hcast, -⟩ := Fallible.bind_eq_ok.mp h
  rw [safeCast] at hcast
  split at hcast
  · assumption
  · cases hcast

theorem forall_mem_set {α : Type} {p : α → Prop} {l : List α} {k : Nat} {a : α}
    (hl : ∀ x ∈ l, p x) (ha : p a) : ∀ x ∈ l.set k a, p x := by
  intro x hx
  rcases List.mem_or_eq_of_mem_set hx with hx | rfl
  · exact hl x hx
  · exact ha

theorem forall_mem_concat {α : Type} {p : α → Prop} {l : List α} {a : α} (hl : ∀ x ∈ l, p x)
    (ha : p a) : ∀ x ∈ l ++ [a], p x := by
  intro x hx
  rcases List.mem_append.mp hx with hx | hx
  · exact hl x hx
  · rw [List.mem_singleton.mp hx]
    exact ha

theorem Genuine.effect (hs : Genuine s) (h : TaskEffect s i t s') : Genuine s' := by
  cases h with
  | move hheld hheld' hlive hfits => exact { hs with tasks := forall_mem_set hs.tasks hfits }
  | exit hheld hlive hempty => exact { hs with tasks := forall_mem_set hs.tasks trivial }
  | extract hheld hr hheld' hlive hlive' hfits =>
      exact { hs with tasks := forall_mem_set hs.tasks hfits }
  | push hheld hheld' hlive hlive' hfits houtcome =>
      exact { hs with
        tasks := forall_mem_set hs.tasks hfits
        pushes := forall_mem_concat hs.pushes houtcome }

theorem Genuine.insert (hs : Genuine s) {size : Nat} {netMemoryDelta : Int}
    (hsize : Countable size) : Genuine (insert s i size netMemoryDelta) := by
  unfold ReserveOrWait.insert
  dsimp only
  split
  · exact { hs with
      callers := forall_mem_set hs.callers trivial
      inserted := forall_mem_concat hs.inserted hsize }
  · refine { hs with
      callers := forall_mem_set hs.callers ?_
      inserted := forall_mem_concat hs.inserted hsize
      tasks := forall_mem_concat hs.tasks trivial }
    split
    · trivial
    · trivial

end Genuine

/-- What a step does to the tasks and to the pending requests: a task takes a step, a request is
inserted, or requests are only taken out. -/
theorem step_cases {cfg : Config} {s s' : State} {l : Label} (h : step cfg l s = some s') :
    (∃ i l' t, s.tasks[i]? = some t ∧ taskStep cfg s i l' t = some s') ∨
      (∃ i size netMemoryDelta, s' = insert s i size netMemoryDelta) ∨
      (s'.tasks = s.tasks ∧ s'.sequenceCounter = s.sequenceCounter ∧
        s'.requests.Sublist s.requests) := by
  have hframe : ∀ {s' : State}, s'.tasks = s.tasks → s'.sequenceCounter = s.sequenceCounter →
      s'.requests = s.requests → s'.tasks = s.tasks ∧ s'.sequenceCounter = s.sequenceCounter ∧
        s'.requests.Sublist s.requests := by
    intro s' htasks hcounter hrequests
    rw [hrequests]
    exact ⟨htasks, hcounter, .refl _⟩
  cases l with
  | call size netMemoryDelta available reserved =>
      simp only [step] at h
      split at h
      · cases h
        exact .inr (.inr (hframe rfl rfl rfl))
      · cases h
  | insert i =>
      simp only [step] at h
      split at h
      · cases h
        exact .inr (.inl ⟨i, _, _, rfl⟩)
      · cases h
  | join i =>
      simp only [step] at h
      split at h
      · split at h
        · cases h
          exact .inr (.inr (hframe rfl rfl rfl))
        · cases h
      · cases h
  | pop i =>
      simp only [step] at h
      split at h
      · split at h
        · cases h
          exact .inr (.inr (hframe rfl rfl rfl))
        · cases h
          exact .inr (.inr (hframe rfl rfl rfl))
        · cases h
          exact .inr (.inr (hframe rfl rfl rfl))
        · cases h
      · cases h
  | task i l =>
      simp only [step] at h
      split at h
      · next t ht => exact .inl ⟨i, l, t, ht, h⟩
      · cases h
  | pushed k =>
      simp only [step] at h
      split at h
      · split at h
        · cases h
          exact .inr (.inr (hframe rfl rfl rfl))
        · cases h
          exact .inr (.inr (hframe rfl rfl rfl))
      · cases h
  | shutdown =>
      cases h
      exact .inr (.inr ⟨rfl, rfl, List.nil_sublist _⟩)
  | shut i k =>
      simp only [step] at h
      split at h
      · split at h
        · cases h
          exact .inr (.inr (hframe rfl rfl rfl))
        · cases h
      · cases h
  | shutJoin i =>
      simp only [step] at h
      split at h
      · cases h
        exact .inr (.inr (hframe rfl rfl rfl))
      · cases h
        exact .inr (.inr (hframe rfl rfl rfl))
      · cases h
  | shutReturn i =>
      simp only [step] at h
      split at h
      · split at h
        · cases h
          exact .inr (.inr (hframe rfl rfl rfl))
        · cases h
      · cases h

/-- What holds of an instance. -/
structure State.Sound (s : State) : Prop where
  serving : Serving s
  ledger : Ledger s
  genuine : Genuine s

theorem step_sound {cfg : Config} {s s' : State} {l : Label} (hs : s.Sound)
    (h : step cfg l s = some s') : s'.Sound := by
  obtain ⟨hserving, hledger, hgenuine⟩ := hs
  cases l with
  | call size netMemoryDelta available reserved =>
      simp only [step] at h
      split at h
      · next granted overbooking hreserve =>
          cases h
          refine ⟨hserving.frame rfl rfl id, hledger.frame rfl rfl rfl rfl fun _ => rfl,
            { hgenuine with callers := forall_mem_concat hgenuine.callers ?_ }⟩
          split
          · trivial
          · next hless => exact reserve_countable hreserve hless
      · cases h
  | insert i =>
      simp only [step] at h
      split at h
      · next size netMemoryDelta hi =>
          cases h
          have hsize := hgenuine.callers _ (List.mem_of_getElem? hi)
          exact ⟨hserving.insert size netMemoryDelta, hledger.insert size netMemoryDelta,
            hgenuine.insert hsize⟩
      · cases h
  | join i =>
      simp only [step] at h
      split at h
      · split at h
        · cases h
          exact ⟨hserving.frame rfl rfl id, hledger.frame rfl rfl rfl rfl fun _ => rfl,
            { hgenuine with callers := forall_mem_set hgenuine.callers trivial }⟩
        · cases h
      · cases h
  | pop i =>
      simp only [step] at h
      split at h
      · split at h
        · cases h
          exact ⟨hserving.frame rfl rfl id, hledger.frame rfl rfl rfl rfl fun _ => rfl,
            { hgenuine with callers := forall_mem_set hgenuine.callers trivial }⟩
        · cases h
          exact ⟨hserving.frame rfl rfl id, hledger.frame rfl rfl rfl rfl fun _ => rfl,
            { hgenuine with callers := forall_mem_set hgenuine.callers trivial }⟩
        · cases h
          exact ⟨hserving.frame rfl rfl id, hledger.frame rfl rfl rfl rfl fun _ => rfl,
            { hgenuine with callers := forall_mem_set hgenuine.callers trivial }⟩
        · cases h
      · cases h
  | task i l =>
      simp only [step] at h
      split at h
      · next t ht =>
          have heffect := taskStep_effect (hgenuine.tasks t (List.mem_of_getElem? ht)) h
          exact ⟨hserving.effect ht heffect, hledger.effect ht heffect, hgenuine.effect heffect⟩
      · cases h
  | pushed k =>
      simp only [step] at h
      split at h
      · next r outcome hk =>
          split at h
          · next hshut =>
              have hnone := hledger.push_accepted hk
              rw [State.answered, List.count_eq_zero] at hnone
              exact absurd (List.mem_map.mpr ⟨_, hshut, rfl⟩) hnone
          · cases h
            refine ⟨hserving.frame rfl rfl id, hledger.pushed hk, { hgenuine with
              pushes := fun x hx => hgenuine.pushes x (List.mem_of_mem_eraseIdx hx)
              answers := forall_mem_concat hgenuine.answers ?_ }⟩
            exact hgenuine.pushes _ (List.mem_of_getElem? hk)
      · cases h
  | shutdown =>
      cases h
      exact ⟨hserving.frame rfl rfl fun h => absurd rfl h, hledger.shutdown, { hgenuine with }⟩
  | shut i k =>
      simp only [step] at h
      split at h
      · next requests task hi =>
          split at h
          · next r hk =>
              cases h
              exact ⟨hserving.frame rfl rfl id, hledger.shut hi hk, { hgenuine with
                answers := forall_mem_concat hgenuine.answers trivial }⟩
          · cases h
      · cases h
  | shutJoin i =>
      simp only [step] at h
      split at h
      · next task hi =>
          cases h
          exact ⟨hserving.frame rfl rfl id, hledger.shut_over hi rfl rfl, { hgenuine with }⟩
      · next hi =>
          cases h
          exact ⟨hserving.frame rfl rfl id, hledger.shut_over hi rfl rfl, { hgenuine with }⟩
      · cases h
  | shutReturn i =>
      simp only [step] at h
      split at h
      · next task hi =>
          split at h
          · cases h
            exact ⟨hserving.frame rfl rfl id, hledger.shut_over hi rfl rfl, { hgenuine with }⟩
          · cases h
      · cases h

theorem new_sound : State.new.Sound where
  serving :=
    ⟨nofun, fun _ _ _ h => (nomatch h), fun _ _ _ _ h => (nomatch h), fun h => absurd rfl h⟩
  ledger := ⟨fun _ => rfl, fun _ => rfl, rfl⟩
  genuine := ⟨nofun, nofun, nofun, nofun, nofun⟩

theorem reachable_sound {cfg : Config} {s : State} (hs : (system cfg).Reachable s) : s.Sound := by
  refine hs.invariant ?_ (fun s l s' h hstep => step_sound h hstep)
  rintro s rfl
  exact new_sound

end Rapidsmpf.Streaming.ReserveOrWait
