import Mathlib
import Rapidsmpf.Lib.Transition

/-!
# The progress thread

`progress_thread.cpp` on top of `pausable_thread_loop.cpp`: a loop thread that calls the registered
functions, and any number of threads that add and remove functions, pause and resume. A step is a
section under `mutex_` or, where the source changes the atomic state of the loop inside of such a
section or outside of any, the part up to that change. What the thread that holds the mutex is
about to do is part of the mutex, so that no two threads can hold it.

A waiting thread may evaluate its condition whenever the mutex is free. `stop` is called by the
destructor, when no other call is made, and the two states that it enters are left out.
-/

namespace Rapidsmpf.ProgressThread

open Protocol

abbrev Thread := Nat

/-- `FunctionIndex`, a `std::uint64_t`: fewer than `2 ^ 64` functions are added, so the counter of
the ids does not wrap. -/
abbrev FunctionIndex := Nat

/-- `PausableThreadLoop::State`. -/
inductive LoopState where
  | paused
  | pausing
  | running
deriving DecidableEq

/-- `PausableThreadLoop::resume`. -/
def LoopState.resume (_ : LoopState) : LoopState := .running

/-- `PausableThreadLoop::pause_nb`. -/
def LoopState.pauseNb : LoopState → LoopState
  | .running => .pausing
  | state => state

/-- The next access of the loop thread. -/
inductive Control where
  /-- `state_.wait(State::Paused)`. -/
  | waiting
  /-- The exchange of `Pausing` for `Paused`. -/
  | exchanging
  /-- `event_loop`, before the mutex. -/
  | locking
  /-- In the loop over the functions. -/
  | iterating
deriving DecidableEq

/-- What the thread that holds the mutex is about to do. -/
inductive Section where
  | addResuming (t : Thread) (id : FunctionIndex)
  | addActivating (t : Thread) (id : FunctionIndex)
  | removePausing (t : Thread)
  | removeDeactivating (t : Thread)
  /-- The loop thread, with the functions it has still to visit. -/
  | iterating (rest : Finset FunctionIndex)
deriving DecidableEq

/-- Where a thread is in its call. -/
inductive Stage where
  | idle
  /-- It holds the mutex. -/
  | inSection
  | adding
  | removing (id : FunctionIndex)
  /-- In the wait of `remove_function`. -/
  | removeWaiting (id : FunctionIndex)
  | pausing
  /-- `state_.wait(State::Pausing)`. -/
  | pauseWaiting
  | pauseDeactivating
  | resuming
  | resumeActivating
deriving DecidableEq

/-- The progress thread with all its threads. The last three members record the functions that have
returned `Done`, those that `remove_function` has erased, and those that were registered when the
user paused the loop. -/
structure State where
  loop : LoopState
  control : Control
  active : Bool
  mutex : Option Section
  functions : Finset FunctionIndex
  isDone : FunctionIndex → Bool
  nextFunctionId : FunctionIndex
  stage : Thread → Stage
  done : Finset FunctionIndex
  removed : Finset FunctionIndex
  paused : Finset FunctionIndex

inductive Call where
  | add
  | remove (id : FunctionIndex)
  | pause
  | resume

/-- Where a call starts. -/
def Call.stage : Call → Stage
  | .add => .adding
  | .remove id => .removing id
  | .pause => .pausing
  | .resume => .resuming

inductive Label where
  | start (t : Thread) (c : Call)
  /-- The next step of a call outside of the mutex. -/
  | go (t : Thread)
  /-- The next step of the call that holds the mutex. -/
  | inSection
  | loop
  /-- The loop thread passes over a function that is done. -/
  | skip (id : FunctionIndex)
  /-- The loop thread calls a function, which returns `Done` or not. -/
  | call (id : FunctionIndex) (result : Bool)

/-- The condition of the wait in `remove_function` is evaluated, with the mutex. When it holds the
function is erased, and without functions the call goes on to pause the loop. -/
def evaluate (t : Thread) (id : FunctionIndex) (s : State) : State :=
  if s.active = false ∨ id ∈ s.functions ∧ s.isDone id = true then
    if s.functions.erase id = ∅ then
      { s with
        functions := s.functions.erase id
        removed := insert id s.removed
        mutex := some (.removePausing t)
        stage := Function.update s.stage t .inSection }
    else
      { s with
        functions := s.functions.erase id
        removed := insert id s.removed
        stage := Function.update s.stage t .idle }
  else if id ∈ s.functions then { s with stage := Function.update s.stage t (.removeWaiting id) }
  else
    -- `functions_.at` throws
    { s with stage := Function.update s.stage t .idle }

/-- The next step of a call outside of the mutex. -/
def go (t : Thread) (s : State) : Option State :=
  let become (stage : Stage) := Function.update s.stage t stage
  match s.stage t with
  | .idle | .inSection => none
  | .adding =>
      if s.mutex = none then
        some { s with
          mutex := some (.addResuming t s.nextFunctionId)
          functions := insert s.nextFunctionId s.functions
          isDone := Function.update s.isDone s.nextFunctionId false
          nextFunctionId := s.nextFunctionId + 1
          stage := become .inSection }
      else none
  | .removing id =>
      if s.mutex = none then
        if id ∈ s.functions then some (evaluate t id s)
        else
          -- Function not registered or already removed
          some { s with stage := become .idle }
      else none
  | .removeWaiting id => if s.mutex = none then some (evaluate t id s) else none
  | .pausing =>
      some { s with
        loop := s.loop.pauseNb
        paused := if s.loop = .running then s.paused ∪ s.functions else s.paused
        stage := become .pauseWaiting }
  | .pauseWaiting =>
      if s.loop = .pausing then none else some { s with stage := become .pauseDeactivating }
  | .pauseDeactivating =>
      if s.mutex = none then some { s with active := false, stage := become .idle } else none
  | .resuming => some { s with loop := s.loop.resume, stage := become .resumeActivating }
  | .resumeActivating =>
      if s.mutex = none then some { s with active := true, stage := become .idle } else none

/-- The next step of the call that holds the mutex. -/
def sectionStep (s : State) : Option State :=
  match s.mutex with
  | some (.addResuming t id) =>
      some { s with loop := s.loop.resume, mutex := some (.addActivating t id) }
  | some (.addActivating t _) =>
      some { s with active := true, mutex := none, stage := Function.update s.stage t .idle }
  | some (.removePausing t) =>
      some { s with loop := s.loop.pauseNb, mutex := some (.removeDeactivating t) }
  | some (.removeDeactivating t) =>
      some { s with active := false, mutex := none, stage := Function.update s.stage t .idle }
  | _ => none

/-- A step of the loop thread other than the visit of a function. -/
def loopStep (s : State) : Option State :=
  match s.control with
  | .waiting => if s.loop = .paused then none else some { s with control := .exchanging }
  | .exchanging =>
      if s.loop = .pausing then some { s with loop := .paused, control := .waiting }
      else some { s with control := .locking }
  | .locking =>
      if s.mutex = none then
        some { s with mutex := some (.iterating s.functions), control := .iterating }
      else none
  | .iterating =>
      if s.mutex = some (.iterating ∅) then some { s with mutex := none, control := .waiting }
      else none

/-- `FunctionState::operator()` of the next function. -/
def visit (id : FunctionIndex) (result : Option Bool) (s : State) : Option State :=
  match s.mutex with
  | some (.iterating rest) =>
      if id ∈ rest then
        match s.isDone id, result with
        | true, none => some { s with mutex := some (.iterating (rest.erase id)) }
        | false, some r =>
            some { s with
              mutex := some (.iterating (rest.erase id))
              isDone := Function.update s.isDone id r
              done := if r then insert id s.done else s.done }
        | _, _ => none
      else none
  | _ => none

def step (l : Label) (s : State) : Option State :=
  match l with
  | .start t c =>
      if s.stage t = .idle then some { s with stage := Function.update s.stage t c.stage } else none
  | .go t => go t s
  | .inSection => sectionStep s
  | .loop => loopStep s
  | .skip id => visit id none s
  | .call id result => visit id (some result) s

/-- A progress thread that has just been constructed. -/
def initial : State where
  loop := .paused
  control := .waiting
  active := false
  mutex := none
  functions := ∅
  isDone _ := false
  nextFunctionId := 0
  stage _ := .idle
  done := ∅
  removed := ∅
  paused := ∅

def system : System State Label where
  init s := s = initial
  step s l s' := step l s = some s'

/-- No thread is in one of the calls. -/
def State.NoCall (s : State) : Prop := ∀ t, s.stage t = .idle

/-- Some `pause` has still to clear `active_`. -/
def State.Clearing (s : State) : Prop :=
  ∃ t, s.stage t = .pauseWaiting ∨ s.stage t = .pauseDeactivating

/-- Some `resume` has still to set `active_`. -/
def State.Setting (s : State) : Prop := ∃ t, s.stage t = .resumeActivating

/-- `pause` clears `active_` when the loop is not running, or when a `resume` has still to set it
and the user has paused the loop for all the functions. `resume` sets it when the loop is running,
or when a `pause` has still to clear it. -/
def Agreeing (s : State) (l : Label) : Prop :=
  ∀ t, l = .go t →
    (s.stage t = .pauseDeactivating →
      s.loop ≠ .running ∨ s.Setting ∧ s.functions ⊆ s.paused) ∧
    (s.stage t = .resumeActivating → s.loop = .running ∨ s.Clearing)

end Rapidsmpf.ProgressThread
