import Mathlib
import Rapidsmpf.Lib.ListFacts
import Rapidsmpf.Lib.Transition
import Rapidsmpf.Memory.Resource
import Rapidsmpf.Memory.ScopedMemoryRecord

/-!
# The memory resource that keeps records

`RmmResourceAdaptorImpl` of `detail/rmm_resource_adaptor_impl.hpp`. It keeps a main record, a
stack of records for each thread that opened a scope, and the thread of each allocation that was
made inside a scope, to whose open scope the deallocation is charged, whichever thread makes it.

The steps are the sections under `mutex_` and the calls of the primary resource, which happen
outside the lock: `allocate` records after the primary resource has given the memory, and
`deallocate` records before the primary resource takes it back. The history lists the sections in
the order in which they had the lock.
-/

namespace Rapidsmpf.Memory.RmmResourceAdaptor

open Protocol ListFacts ScopedMemoryRecord

abbrev ThreadId := Nat

abbrev Pointer := Nat

/-- The ways a call can fail. -/
inductive Failure where
  /-- `safe_cast`: value out of range. -/
  | overflow
  /-- duplicate memory pointer -/
  | duplicateMemoryPointer
  /-- `record_stacks_` has no entry for the thread. -/
  | outOfRange
  /-- calling end_scoped_memory_record() on an empty stack. -/
  | emptyStack
deriving DecidableEq

/-- `record_stacks_`. -/
abbrev RecordStacks := List (ThreadId × List ScopedMemoryRecord)

/-- The stack of a thread; a thread without an entry has none. -/
def stackOf (records : RecordStacks) (t : ThreadId) : List ScopedMemoryRecord :=
  (records.lookup t).getD []

/-- `record_stacks_` after the stack of a thread changed, with an entry for it. -/
def setStack (records : RecordStacks) (t : ThreadId) (stack : List ScopedMemoryRecord) :
    RecordStacks :=
  (t, stack) :: records.filter fun x => decide (x.1 ≠ t)

/-- What the mutex protects. -/
structure Adaptor where
  mainRecord : ScopedMemoryRecord
  recordStacks : RecordStacks
  allocatingThreads : List (Pointer × ThreadId)

/-- `begin_scoped_memory_record`. -/
def beginScopedMemoryRecord (a : Adaptor) (t : ThreadId) : Adaptor :=
  { a with recordStacks := setStack a.recordStacks t ({} :: stackOf a.recordStacks t) }

/-- `end_scoped_memory_record`. -/
def endScopedMemoryRecord (a : Adaptor) (t : ThreadId) :
    Except Failure (ScopedMemoryRecord × Adaptor) :=
  match a.recordStacks.lookup t with
  | none => .error .outOfRange
  | some [] => .error .emptyStack
  | some [ret] => .ok (ret, { a with recordStacks := setStack a.recordStacks t [] })
  | some (ret :: top :: rest) =>
      .ok (ret, { a with recordStacks := setStack a.recordStacks t (top.addSubscope ret :: rest) })

/-- The section of `allocate` under the lock. -/
def recordAllocate (a : Adaptor) (t : ThreadId) (ptr : Pointer) (bytes : Nat) :
    Except Failure Adaptor :=
  match safeCast bytes with
  | .error _ => .error .overflow
  | .ok nbytes =>
      let a := { a with mainRecord := a.mainRecord.recordAllocation nbytes }
      if a.recordStacks = [] then .ok a
      else
        match stackOf a.recordStacks t with
        | [] => .ok { a with recordStacks := setStack a.recordStacks t [] }
        | top :: rest =>
            match a.allocatingThreads.lookup ptr with
            | some _ => .error .duplicateMemoryPointer
            | none => .ok { a with
                recordStacks := setStack a.recordStacks t (top.recordAllocation nbytes :: rest)
                allocatingThreads := (ptr, t) :: a.allocatingThreads }

/-- The section of `deallocate` under the lock. A failure ends the program, since `deallocate` is
`noexcept`. -/
def recordDeallocate (a : Adaptor) (ptr : Pointer) (bytes : Nat) :
    Except Failure Adaptor :=
  match safeCast bytes with
  | .error _ => .error .overflow
  | .ok nbytes =>
      let a := { a with mainRecord := a.mainRecord.recordDeallocation nbytes }
      match a.allocatingThreads.lookup ptr with
      | none => .ok a
      | some t =>
          let a := { a with
            allocatingThreads := a.allocatingThreads.filter fun x => decide (x.1 ≠ ptr) }
          match stackOf a.recordStacks t with
          | [] => .ok { a with recordStacks := setStack a.recordStacks t [] }
          | top :: rest => .ok { a with
              recordStacks := setStack a.recordStacks t (top.recordDeallocation nbytes :: rest) }

/-- Where a thread is. -/
inductive Call where
  | idle
  /-- In `allocate`, with the memory that the primary resource gave. -/
  | allocating (ptr : Pointer) (bytes : Nat)
  /-- In `deallocate`, before the primary resource takes the memory back. -/
  | releasing (ptr : Pointer)

/-- A section under the lock. -/
inductive Event where
  | begun (t : ThreadId)
  | ended (t : ThreadId)
  | allocated (t : ThreadId) (ptr : Pointer) (bytes : Nat)
  | freed (t : ThreadId) (ptr : Pointer) (bytes : Nat)

/-- The live allocations: those that were made and not freed, with their sizes. -/
def liveAllocations (history : List Event) : List (Pointer × Nat) :=
  history.foldl
    (fun live e =>
      match e with
      | .allocated _ ptr bytes => (ptr, bytes) :: live
      | .freed _ ptr bytes => live.erase (ptr, bytes)
      | _ => live)
    []

/-- The adaptor, its primary resource and its callers. -/
structure State where
  adaptor : Adaptor
  /-- The memory that the primary resource has given and not taken back. -/
  live : List Pointer
  calls : ThreadId → Call
  history : List Event

inductive Label where
  | begin (t : ThreadId)
  | finish (t : ThreadId)
  | allocate (t : ThreadId) (ptr : Pointer) (bytes : Nat)
  | record (t : ThreadId)
  | deallocate (t : ThreadId) (ptr : Pointer) (bytes : Nat)
  | release (t : ThreadId)

def step (l : Label) (s : State) : Option State :=
  match l with
  | .begin t =>
      match s.calls t with
      | .idle => some { s with
          adaptor := beginScopedMemoryRecord s.adaptor t
          history := s.history ++ [.begun t] }
      | _ => none
  | .finish t =>
      match s.calls t with
      | .idle =>
          match endScopedMemoryRecord s.adaptor t with
          | .ok (_, a) => some { s with adaptor := a, history := s.history ++ [.ended t] }
          | .error _ => some s
      | _ => none
  | .allocate t ptr bytes =>
      match s.calls t with
      | .idle =>
          -- the primary resource gives distinct pointers
          if ptr ∈ s.live then none
          else some { s with
            live := ptr :: s.live
            calls := Function.update s.calls t (.allocating ptr bytes) }
      | _ => none
  | .record t =>
      match s.calls t with
      | .allocating ptr bytes =>
          match recordAllocate s.adaptor t ptr bytes with
          | .ok a => some { s with
              adaptor := a
              calls := Function.update s.calls t .idle
              history := s.history ++ [.allocated t ptr bytes] }
          -- the memory is lost
          | .error _ => some { s with calls := Function.update s.calls t .idle }
      | _ => none
  | .deallocate t ptr bytes =>
      match s.calls t with
      | .idle =>
          if (ptr, bytes) ∈ liveAllocations s.history then
            match recordDeallocate s.adaptor ptr bytes with
            | .ok a => some { s with
                adaptor := a
                calls := Function.update s.calls t (.releasing ptr)
                history := s.history ++ [.freed t ptr bytes] }
            | .error _ => none
          else none
      | _ => none
  | .release t =>
      match s.calls t with
      | .releasing ptr => some { s with
          live := s.live.filter fun p => decide (p ≠ ptr)
          calls := Function.update s.calls t .idle }
      | _ => none

/-- A new adaptor. -/
def State.new : State := ⟨⟨{}, [], []⟩, [], fun _ => .idle, []⟩

def system : System State Label where
  init s := s = .new
  step s l s' := step l s = some s'

/-! ## What a scope is charged -/

/-- Who is charged: how many scopes each thread has open, and which thread allocated a pointer
inside one of its scopes. -/
structure Attribution where
  depth : ThreadId → Nat
  owner : Pointer → Option ThreadId

def Attribution.next (a : Attribution) : Event → Attribution
  | .begun t => { a with depth := Function.update a.depth t (a.depth t + 1) }
  | .ended t => { a with depth := Function.update a.depth t (a.depth t - 1) }
  | .allocated t ptr _ =>
      { a with owner := Function.update a.owner ptr (if 0 < a.depth t then some t else none) }
  | .freed _ ptr _ => { a with owner := Function.update a.owner ptr none }

def Attribution.start : Attribution := ⟨fun _ => 0, fun _ => none⟩

/-- Who is charged after these sections. -/
def Attribution.after (a : Attribution) (history : List Event) : Attribution :=
  history.foldl Attribution.next a

/-- What a section charges to a thread: its own allocations, and the deallocations of pointers it
allocated inside one of its scopes. -/
def Attribution.charge (a : Attribution) (t : ThreadId) : Event → List MemoryEvent
  | .allocated t' _ bytes => if t' = t then [.allocated bytes] else []
  | .freed _ ptr bytes => if a.owner ptr = some t then [.freed bytes] else []
  | _ => []

/-- What the sections charge to a thread, in order. -/
def Attribution.charged (a : Attribution) (t : ThreadId) : List Event → List MemoryEvent
  | [] => []
  | e :: events => a.charge t e ++ (a.next e).charged t events

/-- Sections in which each scope of the thread that is opened is closed, and no other. -/
inductive Balanced (t : ThreadId) : List Event → Prop where
  | nil : Balanced t []
  | other {events : List Event} {e : Event} (h : Balanced t events) (hbegun : e ≠ .begun t)
      (hended : e ≠ .ended t) : Balanced t (events ++ [e])
  | scope {events inner : List Event} (h : Balanced t events) (hinner : Balanced t inner) :
      Balanced t (events ++ .begun t :: inner ++ [.ended t])

/-- What each open scope of a thread was charged outside of its subscopes that are still open; an
ended subscope is part of its parent. -/
def Attribution.nextScopes (a : Attribution) (t : ThreadId) (scopes : List (List MemoryEvent)) :
    Event → List (List MemoryEvent)
  | .begun t' => if t' = t then [] :: scopes else scopes
  | .ended t' =>
      if t' = t then
        match scopes with
        | inner :: outer :: rest => (outer ++ inner) :: rest
        | _ => []
      else scopes
  | e =>
      match scopes with
      | [] => []
      | inner :: rest => (inner ++ a.charge t e) :: rest

def Attribution.scopes (a : Attribution) (t : ThreadId) (scopes : List (List MemoryEvent)) :
    List Event → List (List MemoryEvent)
  | [] => scopes
  | e :: events => (a.next e).scopes t (a.nextScopes t scopes e) events

section Scopes

variable {a : Attribution} {t : ThreadId}

theorem after_append (a : Attribution) (events events' : List Event) :
    a.after (events ++ events') = (a.after events).after events' :=
  List.foldl_append

theorem charged_append (a : Attribution) (t : ThreadId) (events events' : List Event) :
    a.charged t (events ++ events') = a.charged t events ++ (a.after events).charged t events' := by
  induction events generalizing a with
  | nil => rfl
  | cons e events ih =>
      change _ ++ (a.next e).charged t (events ++ events') = _
      rw [ih, ← List.append_assoc]
      rfl

theorem scopes_append (a : Attribution) (t : ThreadId) (scopes : List (List MemoryEvent))
    (events events' : List Event) :
    a.scopes t scopes (events ++ events') =
      (a.after events).scopes t (a.scopes t scopes events) events' := by
  induction events generalizing a scopes with
  | nil => rfl
  | cons e events ih => exact ih (a.next e) (a.nextScopes t scopes e)

theorem scopes_cons (a : Attribution) (t : ThreadId) (scopes : List (List MemoryEvent)) (e : Event)
    (events : List Event) :
    a.scopes t scopes (e :: events) = (a.next e).scopes t (a.nextScopes t scopes e) events :=
  rfl

theorem scopes_concat (a : Attribution) (t : ThreadId) (scopes : List (List MemoryEvent))
    (events : List Event) (e : Event) :
    a.scopes t scopes (events ++ [e]) =
      (a.after events).nextScopes t (a.scopes t scopes events) e :=
  scopes_append a t scopes events [e]

theorem nextScopes_begun (a : Attribution) (t : ThreadId) (scopes : List (List MemoryEvent)) :
    a.nextScopes t scopes (.begun t) = [] :: scopes := by
  simp [Attribution.nextScopes]

theorem nextScopes_ended (a : Attribution) (t : ThreadId) (inner outer : List MemoryEvent)
    (rest : List (List MemoryEvent)) :
    a.nextScopes t (inner :: outer :: rest) (.ended t) = (outer ++ inner) :: rest := by
  simp [Attribution.nextScopes]

/-- Without an open scope only a beginning has an effect. -/
theorem nextScopes_nil (a : Attribution) {e : Event} (hbegun : e ≠ .begun t) :
    a.nextScopes t [] e = [] := by
  cases e with
  | begun t' =>
      have hne : t' ≠ t := fun h => hbegun (h ▸ rfl)
      simp [Attribution.nextScopes, hne]
  | ended t' => simp [Attribution.nextScopes]
  | allocated t' ptr bytes => rfl
  | freed t' ptr bytes => rfl

/-- An event other than a bracket of the thread is charged to its innermost scope. -/
theorem nextScopes_other (a : Attribution) (inner : List MemoryEvent)
    (rest : List (List MemoryEvent)) {e : Event} (hbegun : e ≠ .begun t) (hended : e ≠ .ended t) :
    a.nextScopes t (inner :: rest) e = (inner ++ a.charge t e) :: rest := by
  cases e with
  | begun t' =>
      have hne : t' ≠ t := fun h => hbegun (h ▸ rfl)
      simp [Attribution.nextScopes, Attribution.charge, hne]
  | ended t' =>
      have hne : t' ≠ t := fun h => hended (h ▸ rfl)
      simp [Attribution.nextScopes, Attribution.charge, hne]
  | allocated t' ptr bytes => rfl
  | freed t' ptr bytes => rfl

/-- Balanced sections charge the innermost scope with all that they charge to the thread. -/
theorem Balanced.scopes_eq {events : List Event} (h : Balanced t events) (a : Attribution)
    (inner : List MemoryEvent) (rest : List (List MemoryEvent)) :
    a.scopes t (inner :: rest) events = (inner ++ a.charged t events) :: rest := by
  induction h generalizing a inner rest with
  | nil =>
      rw [Attribution.charged, List.append_nil]
      rfl
  | @other events e _ hbegun hended ih =>
      rw [scopes_concat, ih, charged_append, nextScopes_other _ _ _ hbegun hended]
      simp [Attribution.charged]
  | @scope events inside _ _ ih ihinside =>
      rw [scopes_concat, scopes_append, ih, scopes_cons, nextScopes_begun, ihinside,
        List.nil_append, nextScopes_ended, charged_append, charged_append]
      simp [Attribution.charged, Attribution.charge]

/-- The number of scopes that are open. -/
theorem scopes_length (a : Attribution) (t : ThreadId) (scopes : List (List MemoryEvent))
    (hdepth : scopes.length = a.depth t) (events : List Event) :
    (a.scopes t scopes events).length = (a.after events).depth t := by
  induction events generalizing a scopes with
  | nil => exact hdepth
  | cons e events ih =>
      refine ih (a.next e) (a.nextScopes t scopes e) ?_
      cases e with
      | begun t' =>
          by_cases ht : t' = t
          · subst ht
            simp [Attribution.nextScopes, Attribution.next, hdepth]
          · simp [Attribution.nextScopes, Attribution.next, ht, Function.update_of_ne (Ne.symm ht),
              hdepth]
      | ended t' =>
          by_cases ht : t' = t
          · subst ht
            simp only [Attribution.nextScopes, if_pos, Attribution.next, Function.update_self,
              ← hdepth]
            match scopes with
            | [] => rfl
            | [_] => rfl
            | _ :: _ :: _ => rfl
          · simp [Attribution.nextScopes, Attribution.next, ht, Function.update_of_ne (Ne.symm ht),
              hdepth]
      | allocated t' ptr bytes =>
          change _ = a.depth t
          rw [← hdepth]
          cases scopes <;> rfl
      | freed t' ptr bytes =>
          change _ = a.depth t
          rw [← hdepth]
          cases scopes <;> rfl

/-- A scope that is open was begun, and what happened since is balanced. -/
theorem exists_begun {history : List Event} {inner : List MemoryEvent}
    {rest : List (List MemoryEvent)} (h : Attribution.start.scopes t [] history = inner :: rest) :
    ∃ before events, history = before ++ .begun t :: events ∧ Balanced t events ∧
      Attribution.start.scopes t [] before = rest := by
  induction hn : history.length using Nat.strongRecOn generalizing history inner rest with
  | ind n ih =>
    subst hn
    cases history using List.reverseRecOn with
    | nil => cases h
    | append_singleton history e =>
        rw [scopes_concat] at h
        have hlt : history.length < (history ++ [e]).length := by simp
        by_cases hbegun : e = .begun t
        · subst hbegun
          rw [Attribution.nextScopes, if_pos rfl] at h
          exact ⟨history, [], rfl, .nil, (List.cons.inj h).2⟩
        by_cases hended : e = .ended t
        · subst hended
          -- the scope that is innermost now was the second, and both were begun
          cases hscopes : Attribution.start.scopes t [] history with
          | nil =>
              rw [hscopes, nextScopes_nil _ hbegun] at h
              cases h
          | cons inner' rest' =>
              cases rest' with
              | nil =>
                  rw [hscopes] at h
                  simp [Attribution.nextScopes] at h
              | cons outer rest' =>
                  rw [hscopes, nextScopes_ended] at h
                  obtain ⟨before, events, rfl, hbalanced, hbefore⟩ := ih _ hlt hscopes rfl
                  have hlt' : before.length <
                      (before ++ .begun t :: events ++ [Event.ended t]).length := by
                    simp only [List.length_append, List.length_cons]
                    omega
                  obtain ⟨before', events', rfl, hbalanced', hbefore'⟩ := ih _ hlt' hbefore rfl
                  refine ⟨before', events' ++ .begun t :: events ++ [.ended t], by simp,
                    .scope hbalanced' hbalanced, ?_⟩
                  rw [hbefore', (List.cons.inj h).2]
        · cases hscopes : Attribution.start.scopes t [] history with
          | nil =>
              rw [hscopes, nextScopes_nil _ hbegun] at h
              cases h
          | cons inner' rest' =>
              rw [hscopes, nextScopes_other _ _ _ hbegun hended] at h
              obtain ⟨before, events, rfl, hbalanced, hbefore⟩ := ih _ hlt hscopes rfl
              refine ⟨before, events ++ [e], by simp, .other hbalanced hbegun hended, ?_⟩
              rw [hbefore, (List.cons.inj h).2]

end Scopes

/-! ## The sections -/

/-- A stack after its top counted an event. -/
def countTop (e : MemoryEvent) : List ScopedMemoryRecord → List ScopedMemoryRecord
  | [] => []
  | top :: rest => top.count e :: rest

section Sections

variable {a a' : Adaptor} {t : ThreadId} {ptr : Pointer} {bytes : Nat}

theorem stackOf_setStack (records : RecordStacks) (t t' : ThreadId)
    (stack : List ScopedMemoryRecord) :
    stackOf (setStack records t stack) t' = if t' = t then stack else stackOf records t' := by
  unfold stackOf setStack
  by_cases ht : t' = t
  · subst ht
    rw [if_pos rfl, List.lookup_cons_self]
    rfl
  · have hne : (t' == t) = false := by simpa using ht
    rw [if_neg ht, List.lookup_cons, hne, lookup_filter_ne ht]

theorem lookup_filter_self {α : Type} (l : List (Nat × α)) (k : Nat) :
    (l.filter fun x => decide (x.1 ≠ k)).lookup k = none := by
  rw [List.lookup_eq_none_iff]
  intro x hx
  have hne := of_decide_eq_true (List.mem_filter.mp hx).2
  simpa using hne.symm

/-- What `allocate` does under the lock. -/
structure Allocated (a : Adaptor) (t : ThreadId) (ptr : Pointer) (bytes : Nat) (a' : Adaptor) :
    Prop where
  main : a'.mainRecord = a.mainRecord.recordAllocation bytes
  stack : ∀ t', stackOf a'.recordStacks t' =
    if t' = t then countTop (.allocated bytes) (stackOf a.recordStacks t)
    else stackOf a.recordStacks t'
  owner : ∀ p, a'.allocatingThreads.lookup p =
    if p = ptr ∧ stackOf a.recordStacks t ≠ [] then some t else a.allocatingThreads.lookup p

theorem recordAllocate_allocated (h : recordAllocate a t ptr bytes = .ok a') :
    Allocated a t ptr bytes a' := by
  unfold recordAllocate safeCast at h
  split at h
  · cases h
  · next nbytes hcast =>
      have hbytes : nbytes = bytes := by
        split at hcast
        · cases hcast
          rfl
        · cases hcast
      subst hbytes
      dsimp only at h
      split at h
      · next hempty =>
          -- no thread has begun a scope
          cases h
          have hnone : stackOf a.recordStacks t = [] := by rw [hempty]; rfl
          refine ⟨rfl, fun t' => ?_, fun p => ?_⟩
          · split
            · next ht =>
                subst ht
                rw [hnone]
                rfl
            · rfl
          · rw [if_neg fun hp => hp.2 hnone]
      · split at h
        · next hnone =>
            cases h
            refine ⟨rfl, fun t' => ?_, fun p => ?_⟩
            · rw [stackOf_setStack, hnone]
              rfl
            · rw [if_neg fun hp => hp.2 hnone]
        · next top rest hstack =>
            split at h
            · cases h
            · cases h
              refine ⟨rfl, fun t' => ?_, fun p => ?_⟩
              · rw [stackOf_setStack, hstack]
                rfl
              · rw [hstack]
                by_cases hp : p = ptr
                · subst hp
                  rw [List.lookup_cons_self, if_pos ⟨rfl, nofun⟩]
                · have hne : (p == ptr) = false := by simpa using hp
                  rw [List.lookup_cons, hne, if_neg fun h => hp h.1]

/-- A pointer that is not recorded is not a duplicate. -/
theorem recordAllocate_ne_duplicate (h : a.allocatingThreads.lookup ptr = none) :
    recordAllocate a t ptr bytes ≠ .error .duplicateMemoryPointer := by
  unfold recordAllocate
  split
  · nofun
  · dsimp only
    split
    · nofun
    · split
      · nofun
      · rw [h]
        nofun

/-- What `deallocate` does under the lock. -/
structure Freed (a : Adaptor) (ptr : Pointer) (bytes : Nat) (a' : Adaptor) : Prop where
  main : a'.mainRecord = a.mainRecord.recordDeallocation bytes
  stack : ∀ t', stackOf a'.recordStacks t' =
    if a.allocatingThreads.lookup ptr = some t' then
      countTop (.freed bytes) (stackOf a.recordStacks t')
    else stackOf a.recordStacks t'
  owner : ∀ p, a'.allocatingThreads.lookup p =
    if p = ptr then none else a.allocatingThreads.lookup p

theorem recordDeallocate_freed (h : recordDeallocate a ptr bytes = .ok a') :
    Freed a ptr bytes a' := by
  unfold recordDeallocate safeCast at h
  split at h
  · cases h
  · next nbytes hcast =>
      have hbytes : nbytes = bytes := by
        split at hcast
        · cases hcast
          rfl
        · cases hcast
      subst hbytes
      dsimp only at h
      split at h
      · next hnone =>
          cases h
          refine ⟨rfl, fun t' => ?_, fun p => ?_⟩
          · rw [hnone, if_neg nofun]
          · split
            · next hp => rw [hp, hnone]
            · rfl
      · next t hsome =>
          have howner : ∀ p, (a.allocatingThreads.filter fun x => decide (x.1 ≠ ptr)).lookup p =
              if p = ptr then none else a.allocatingThreads.lookup p := by
            intro p
            split
            · next hp => rw [hp, lookup_filter_self]
            · next hp => exact lookup_filter_ne hp
          split at h
          · next hstack =>
              cases h
              refine ⟨rfl, fun t' => ?_, howner⟩
              rw [stackOf_setStack, hsome]
              by_cases ht : t' = t
              · subst ht
                rw [if_pos rfl, if_pos rfl, hstack]
                rfl
              · rw [if_neg ht, if_neg fun h => ht (Option.some.inj h).symm]
          · next top rest hstack =>
              cases h
              refine ⟨rfl, fun t' => ?_, howner⟩
              rw [stackOf_setStack, hsome]
              by_cases ht : t' = t
              · subst ht
                rw [if_pos rfl, if_pos rfl, hstack]
                rfl
              · rw [if_neg ht, if_neg fun h => ht (Option.some.inj h).symm]

/-- An ended scope is added to the one around it. -/
def endTop : List ScopedMemoryRecord → List ScopedMemoryRecord
  | ret :: top :: rest => top.addSubscope ret :: rest
  | _ => []

/-- What the end of a scope does, where the thread has one. -/
theorem endScoped_eq_ok {ret : ScopedMemoryRecord} :
    (∃ a', endScopedMemoryRecord a t = .ok (ret, a')) ↔
      ∃ rest, stackOf a.recordStacks t = ret :: rest := by
  unfold endScopedMemoryRecord stackOf
  cases a.recordStacks.lookup t with
  | none => exact ⟨nofun, nofun⟩
  | some stack =>
      match stack with
      | [] => exact ⟨nofun, nofun⟩
      | [top] =>
          constructor
          · rintro ⟨a', h⟩
            cases h
            exact ⟨[], rfl⟩
          · rintro ⟨rest, h⟩
            cases h
            exact ⟨_, rfl⟩
      | top :: next :: rest =>
          constructor
          · rintro ⟨a', h⟩
            cases h
            exact ⟨next :: rest, rfl⟩
          · rintro ⟨rest, h⟩
            cases h
            exact ⟨_, rfl⟩

theorem endScoped_stack {ret : ScopedMemoryRecord}
    (h : endScopedMemoryRecord a t = .ok (ret, a')) :
    a'.mainRecord = a.mainRecord ∧ a'.allocatingThreads = a.allocatingThreads ∧
      ∀ t', stackOf a'.recordStacks t' =
        if t' = t then endTop (stackOf a.recordStacks t) else stackOf a.recordStacks t' := by
  unfold endScopedMemoryRecord at h
  have hstack : ∀ stack, a.recordStacks.lookup t = some stack →
      stackOf a.recordStacks t = stack := by
    intro stack hlookup
    rw [stackOf, hlookup]
    rfl
  split at h
  · cases h
  · cases h
  · next hlookup =>
      cases h
      refine ⟨rfl, rfl, fun t' => ?_⟩
      rw [stackOf_setStack, hstack _ hlookup]
      rfl
  · next top rest hlookup =>
      cases h
      refine ⟨rfl, rfl, fun t' => ?_⟩
      rw [stackOf_setStack, hstack _ hlookup]
      rfl

end Sections

/-- The bytes of all live allocations. -/
def liveBytes (history : List Event) : Int :=
  ((liveAllocations history).map fun x => (x.2 : Int)).sum

section Invariant

/-- The records are those of the history. -/
structure Recording (a : Adaptor) (history : List Event) : Prop where
  nested : ∀ t, stackOf a.recordStacks t = (Attribution.start.scopes t [] history).map ofEvents
  owners : ∀ p, a.allocatingThreads.lookup p = (Attribution.start.after history).owner p
  current : a.mainRecord.current = liveBytes history
  peak : IsGreatest {n | ∃ h, h <+: history ∧ liveBytes h = n} a.mainRecord.peak

/-- The pointer that a call has in hand. -/
def Call.pointer : Call → Option Pointer
  | .idle => none
  | .allocating ptr _ => some ptr
  | .releasing ptr => some ptr

/-- Where the memory of the primary resource is. -/
structure Placed (s : State) : Prop where
  nodup : ((liveAllocations s.history).map Prod.fst).Nodup
  given : ∀ p ∈ (liveAllocations s.history).map Prod.fst, p ∈ s.live
  tracked : ∀ p t, s.adaptor.allocatingThreads.lookup p = some t →
    p ∈ (liveAllocations s.history).map Prod.fst
  held : ∀ t p, (s.calls t).pointer = some p →
    p ∈ s.live ∧ p ∉ (liveAllocations s.history).map Prod.fst
  apart : ∀ t t' p, (s.calls t).pointer = some p → (s.calls t').pointer = some p → t = t'

variable {s s' : State} {a a' : Adaptor} {t : ThreadId} {ptr : Pointer} {bytes : Nat}
  {history : List Event}

theorem after_concat (a : Attribution) (history : List Event) (e : Event) :
    a.after (history ++ [e]) = (a.after history).next e :=
  after_append a history [e]

theorem liveAllocations_concat (history : List Event) (e : Event) :
    liveAllocations (history ++ [e]) =
      match e with
      | .allocated _ ptr bytes => (ptr, bytes) :: liveAllocations history
      | .freed _ ptr bytes => (liveAllocations history).erase (ptr, bytes)
      | _ => liveAllocations history := by
  rw [liveAllocations, List.foldl_append]
  rfl

/-- The greatest of the bytes so far, with those after one more section. -/
theorem peak_concat {n : Int} (h : IsGreatest {n | ∃ h, h <+: history ∧ liveBytes h = n} n)
    (e : Event) : IsGreatest {n | ∃ h, h <+: history ++ [e] ∧ liveBytes h = n}
      (max (liveBytes (history ++ [e])) n) := by
  have hset : {n | ∃ h, h <+: history ++ [e] ∧ liveBytes h = n} =
      insert (liveBytes (history ++ [e])) {n | ∃ h, h <+: history ∧ liveBytes h = n} := by
    ext n
    constructor
    · rintro ⟨h, hprefix, rfl⟩
      rcases List.prefix_concat_iff.mp hprefix with rfl | hprefix
      · exact .inl rfl
      · exact .inr ⟨h, hprefix, rfl⟩
    · rintro (rfl | ⟨h, hprefix, rfl⟩)
      · exact ⟨_, List.prefix_rfl, rfl⟩
      · exact ⟨h, hprefix.trans (List.prefix_append _ _), rfl⟩
  rw [hset]
  exact h.insert _

/-- A section that adds no bytes leaves the peak. -/
theorem peak_concat_of_le {n : Int}
    (h : IsGreatest {n | ∃ h, h <+: history ∧ liveBytes h = n} n) {e : Event}
    (hle : liveBytes (history ++ [e]) ≤ liveBytes history) :
    IsGreatest {n | ∃ h, h <+: history ++ [e] ∧ liveBytes h = n} n := by
  have hmax : liveBytes history ≤ n := h.2 ⟨history, List.prefix_rfl, rfl⟩
  have hnext := peak_concat h e
  rwa [max_eq_right (hle.trans hmax)] at hnext

/-- An allocation or deallocation counts in the innermost scope of the thread it is charged to. -/
theorem map_nextScopes (a : Attribution) (t : ThreadId) (scopes : List (List MemoryEvent))
    {e : Event} (he : ∀ t', e ≠ .begun t' ∧ e ≠ .ended t') :
    (a.nextScopes t scopes e).map ofEvents =
      match a.charge t e with
      | [m] => countTop m (scopes.map ofEvents)
      | _ => scopes.map ofEvents := by
  cases scopes with
  | nil =>
      rw [nextScopes_nil a (he t).1]
      split <;> rfl
  | cons inner rest =>
      rw [nextScopes_other a inner rest (he t).1 (he t).2]
      have hcharge : a.charge t e = [] ∨ ∃ m, a.charge t e = [m] := by
        cases e with
        | begun t' => exact .inl rfl
        | ended t' => exact .inl rfl
        | allocated t' ptr bytes =>
            simp only [Attribution.charge]
            split
            · exact .inr ⟨_, rfl⟩
            · exact .inl rfl
        | freed t' ptr bytes =>
            simp only [Attribution.charge]
            split
            · exact .inr ⟨_, rfl⟩
            · exact .inl rfl
      rcases hcharge with hcharge | ⟨m, hcharge⟩
      · rw [hcharge, List.append_nil]
      · rw [hcharge]
        simp only [List.map_cons, ofEvents_concat, countTop]

/-- A thread has open scopes exactly when it has records. -/
theorem Recording.depth_pos (h : Recording a history) (t : ThreadId) :
    0 < (Attribution.start.after history).depth t ↔ stackOf a.recordStacks t ≠ [] := by
  rw [← scopes_length Attribution.start t [] rfl history, h.nested t, List.length_pos_iff, ne_eq,
    ne_eq, List.map_eq_nil_iff]

/-- Sections that neither allocate nor free. -/
theorem Recording.bracket (h : Recording a history) {e : Event}
    (hlive : liveAllocations (history ++ [e]) = liveAllocations history)
    (howner : ((Attribution.start.after history).next e).owner =
      (Attribution.start.after history).owner)
    (hmain : a'.mainRecord = a.mainRecord) (hthreads : a'.allocatingThreads = a.allocatingThreads)
    (hnested : ∀ t, stackOf a'.recordStacks t =
      (Attribution.start.scopes t [] (history ++ [e])).map ofEvents) :
    Recording a' (history ++ [e]) where
  nested := hnested
  owners p := by
    rw [hthreads, after_concat, howner]
    exact h.owners p
  current := by
    rw [hmain, h.current, liveBytes, liveBytes, hlive]
  peak := by
    rw [hmain]
    exact peak_concat_of_le h.peak (le_of_eq (by rw [liveBytes, liveBytes, hlive]))

theorem Recording.begun (h : Recording a history) (t : ThreadId) :
    Recording (beginScopedMemoryRecord a t) (history ++ [.begun t]) := by
  refine h.bracket (liveAllocations_concat _ _) rfl rfl rfl fun t' => ?_
  rw [scopes_concat, beginScopedMemoryRecord, stackOf_setStack, h.nested, h.nested]
  by_cases ht : t' = t
  · subst ht
    rw [if_pos rfl, nextScopes_begun]
    rfl
  · rw [if_neg ht, Attribution.nextScopes, if_neg (Ne.symm ht)]

theorem Recording.ended {ret : ScopedMemoryRecord} (h : Recording a history)
    (hend : endScopedMemoryRecord a t = .ok (ret, a')) :
    Recording a' (history ++ [.ended t]) := by
  obtain ⟨hmain, hthreads, hstack⟩ := endScoped_stack hend
  refine h.bracket (liveAllocations_concat _ _) rfl hmain hthreads fun t' => ?_
  rw [scopes_concat, hstack, h.nested, h.nested]
  by_cases ht : t' = t
  · subst ht
    rw [if_pos rfl]
    -- the record of the scope is added to that of the scope around it
    match Attribution.start.scopes t' [] history with
    | [] => simp [Attribution.nextScopes, endTop]
    | [inner] => simp [Attribution.nextScopes, endTop]
    | inner :: outer :: rest =>
        rw [nextScopes_ended, List.map_cons, List.map_cons, List.map_cons, ofEvents_append]
        rfl
  · rw [if_neg ht]
    simp only [Attribution.nextScopes, if_neg (Ne.symm ht)]

/-- What the sections that allocate and free do to the stacks is what they charge. -/
theorem Recording.nested_charge (h : Recording a history) {e : Event} {m : MemoryEvent}
    (he : ∀ t', e ≠ .begun t' ∧ e ≠ .ended t') {c : ThreadId → Prop} [DecidablePred c]
    (hcharge : ∀ t', (Attribution.start.after history).charge t' e = if c t' then [m] else [])
    (hstack : ∀ t', stackOf a'.recordStacks t' =
      if c t' then countTop m (stackOf a.recordStacks t') else stackOf a.recordStacks t')
    (t' : ThreadId) : stackOf a'.recordStacks t' =
      (Attribution.start.scopes t' [] (history ++ [e])).map ofEvents := by
  rw [scopes_concat, map_nextScopes _ _ _ he, hcharge, hstack, h.nested]
  split
  · rfl
  · rfl

theorem Recording.allocated (h : Recording a history)
    (hfresh : a.allocatingThreads.lookup ptr = none) (hok : Allocated a t ptr bytes a') :
    Recording a' (history ++ [.allocated t ptr bytes]) := by
  have hlive : liveBytes (history ++ [.allocated t ptr bytes]) = liveBytes history + bytes := by
    rw [liveBytes, liveBytes, liveAllocations_concat, List.map_cons, List.sum_cons]
    exact Int.add_comm _ _
  have hcurrent : a'.mainRecord.current = liveBytes history + bytes := by
    rw [hok.main, ← h.current]
    rfl
  refine ⟨fun t' => ?_, fun p => ?_, hcurrent.trans hlive.symm, ?_⟩
  · refine h.nested_charge (e := .allocated t ptr bytes) (fun t' => ⟨nofun, nofun⟩)
      (c := fun t' => t = t') (fun t' => rfl) (fun t' => ?_) t'
    rw [hok.stack t']
    by_cases ht : t' = t
    · subst ht
      simp only [if_pos]
    · rw [if_neg ht, if_neg (Ne.symm ht)]
  · rw [after_concat, hok.owner p, h.owners p]
    simp only [Attribution.next]
    by_cases hp : p = ptr
    · subst hp
      rw [Function.update_self]
      by_cases hdepth : stackOf a.recordStacks t = []
      · rw [if_neg fun hp => hp.2 hdepth, if_neg fun hpos => (h.depth_pos t).mp hpos hdepth,
          ← h.owners, hfresh]
      · rw [if_pos ⟨rfl, hdepth⟩, if_pos ((h.depth_pos t).mpr hdepth)]
    · rw [if_neg fun h => hp h.1, Function.update_of_ne hp]
  · have hpeak := peak_concat h.peak (.allocated t ptr bytes)
    have hmain : a'.mainRecord.peak =
        max (liveBytes (history ++ [.allocated t ptr bytes])) a.mainRecord.peak := by
      rw [hok.main, hlive, ← h.current, max_comm]
      rfl
    rw [hmain]
    exact hpeak

theorem Recording.freed (h : Recording a history) (hmem : (ptr, bytes) ∈ liveAllocations history)
    (hok : Freed a ptr bytes a') : Recording a' (history ++ [.freed t ptr bytes]) := by
  have hlive : liveBytes (history ++ [.freed t ptr bytes]) = liveBytes history - bytes := by
    have hperm := (List.perm_cons_erase hmem).map fun x => (x.2 : Int)
    have hsum := hperm.sum_eq
    rw [List.map_cons, List.sum_cons] at hsum
    have herase : liveAllocations (history ++ [.freed t ptr bytes]) =
        (liveAllocations history).erase (ptr, bytes) := liveAllocations_concat _ _
    rw [liveBytes, liveBytes, herase, hsum]
    omega
  have hcurrent : a'.mainRecord.current = liveBytes history - bytes := by
    rw [hok.main, ← h.current]
    rfl
  refine ⟨fun t' => ?_, fun p => ?_, hcurrent.trans hlive.symm, ?_⟩
  · refine h.nested_charge (e := .freed t ptr bytes) (fun t' => ⟨nofun, nofun⟩)
      (c := fun t' => a.allocatingThreads.lookup ptr = some t') (fun t' => ?_) hok.stack t'
    rw [h.owners]
    rfl
  · rw [after_concat, hok.owner p, h.owners p]
    simp only [Attribution.next]
    by_cases hp : p = ptr
    · subst hp
      rw [if_pos rfl, Function.update_self]
    · rw [if_neg hp, Function.update_of_ne hp]
  · have hmain : a'.mainRecord.peak = a.mainRecord.peak := by
      rw [hok.main]
      rfl
    rw [hmain]
    exact peak_concat_of_le h.peak (by omega)

/-! ## Where the memory is -/

theorem Placed.fresh (h : Placed s) (ht : (s.calls t).pointer = some ptr) :
    s.adaptor.allocatingThreads.lookup ptr = none := by
  cases hlookup : s.adaptor.allocatingThreads.lookup ptr with
  | none => rfl
  | some t' => exact absurd (h.tracked ptr t' hlookup) (h.held t ptr ht).2

/-- What a call has in hand after a step in which one call changed. -/
theorem update_pointer {calls : ThreadId → Call} {c : Call} {t t' : ThreadId} {p : Pointer}
    (h : (Function.update calls t c t').pointer = some p) :
    t' = t ∧ c.pointer = some p ∨ t' ≠ t ∧ (calls t').pointer = some p := by
  by_cases ht : t' = t
  · subst ht
    rw [Function.update_self] at h
    exact .inl ⟨rfl, h⟩
  · rw [Function.update_of_ne ht] at h
    exact .inr ⟨ht, h⟩

/-- Steps that leave the memory alone; a call may end. -/
theorem Placed.frame (h : Placed s) (hlive : s'.live = s.live)
    (hkeys : liveAllocations s'.history = liveAllocations s.history)
    (hthreads : s'.adaptor.allocatingThreads = s.adaptor.allocatingThreads)
    (hcalls : ∀ t p, (s'.calls t).pointer = some p → (s.calls t).pointer = some p) :
    Placed s' where
  nodup := hkeys ▸ h.nodup
  given := by
    rw [hkeys, hlive]
    exact h.given
  tracked := by
    rw [hkeys, hthreads]
    exact h.tracked
  held t p ht := by
    rw [hkeys, hlive]
    exact h.held t p (hcalls t p ht)
  apart t t' p ht ht' := h.apart t t' p (hcalls t p ht) (hcalls t' p ht')

theorem Placed.allocate (h : Placed s) (hfresh : ptr ∉ s.live) :
    Placed { s with
      live := ptr :: s.live
      calls := Function.update s.calls t (.allocating ptr bytes) } where
  nodup := h.nodup
  given p hp := List.mem_cons_of_mem _ (h.given p hp)
  tracked := h.tracked
  held t' p ht' := by
    rcases update_pointer ht' with ⟨-, hp⟩ | ⟨-, hp⟩
    · cases hp
      exact ⟨List.mem_cons_self, fun hmem => hfresh (h.given ptr hmem)⟩
    · obtain ⟨hlive, hkeys⟩ := h.held t' p hp
      exact ⟨List.mem_cons_of_mem _ hlive, hkeys⟩
  apart t₁ t₂ p h₁ h₂ := by
    rcases update_pointer h₁ with ⟨rfl, hp₁⟩ | ⟨-, hp₁⟩
    · rcases update_pointer h₂ with ⟨rfl, -⟩ | ⟨-, hp₂⟩
      · rfl
      · cases hp₁
        exact absurd (h.held t₂ ptr hp₂).1 hfresh
    · rcases update_pointer h₂ with ⟨rfl, hp₂⟩ | ⟨-, hp₂⟩
      · cases hp₂
        exact absurd (h.held t₁ ptr hp₁).1 hfresh
      · exact h.apart t₁ t₂ p hp₁ hp₂

theorem Placed.allocated (h : Placed s) (ht : (s.calls t).pointer = some ptr)
    (hok : Allocated s.adaptor t ptr bytes a') :
    Placed { s with
      adaptor := a'
      calls := Function.update s.calls t .idle
      history := s.history ++ [.allocated t ptr bytes] } := by
  obtain ⟨hlive, hkeys⟩ := h.held t ptr ht
  have hcons : (liveAllocations (s.history ++ [.allocated t ptr bytes])).map Prod.fst =
      ptr :: (liveAllocations s.history).map Prod.fst := by
    rw [liveAllocations_concat]
    rfl
  refine ⟨?_, fun p hp => ?_, fun p t' hp => ?_, fun t' p hp => ?_, fun t₁ t₂ p h₁ h₂ => ?_⟩
  · rw [hcons]
    exact List.nodup_cons.mpr ⟨hkeys, h.nodup⟩
  · rw [hcons] at hp
    rcases List.mem_cons.mp hp with rfl | hp
    · exact hlive
    · exact h.given p hp
  · rw [hcons]
    rw [hok.owner p] at hp
    split at hp
    · next hptr => exact List.mem_cons.mpr (.inl hptr.1)
    · exact List.mem_cons_of_mem _ (h.tracked p t' hp)
  · rcases update_pointer hp with ⟨-, hheld⟩ | ⟨hne, hheld⟩
    · cases hheld
    · obtain ⟨hlive', hkeys'⟩ := h.held t' p hheld
      refine ⟨hlive', fun hmem => ?_⟩
      rw [hcons] at hmem
      rcases List.mem_cons.mp hmem with rfl | hmem
      · exact hne (h.apart t' t p hheld ht)
      · exact hkeys' hmem
  · rcases update_pointer h₁ with ⟨-, hp₁⟩ | ⟨-, hp₁⟩
    · cases hp₁
    · rcases update_pointer h₂ with ⟨-, hp₂⟩ | ⟨-, hp₂⟩
      · cases hp₂
      · exact h.apart t₁ t₂ p hp₁ hp₂

theorem Placed.freed (h : Placed s) (hmem : (ptr, bytes) ∈ liveAllocations s.history)
    (hok : Freed s.adaptor ptr bytes a') :
    Placed { s with
      adaptor := a'
      calls := Function.update s.calls t (.releasing ptr)
      history := s.history ++ [.freed t ptr bytes] } := by
  have hperm := (List.perm_cons_erase hmem).map Prod.fst
  have hnodup := hperm.nodup_iff.mp h.nodup
  rw [List.map_cons, List.nodup_cons] at hnodup
  have herase : liveAllocations (s.history ++ [.freed t ptr bytes]) =
      (liveAllocations s.history).erase (ptr, bytes) := liveAllocations_concat _ _
  have hkeys : ptr ∈ (liveAllocations s.history).map Prod.fst :=
    List.mem_map_of_mem (f := Prod.fst) hmem
  have hback : ∀ p, p ∈ ((liveAllocations s.history).erase (ptr, bytes)).map Prod.fst →
      p ∈ (liveAllocations s.history).map Prod.fst := fun p hp =>
    hperm.mem_iff.mpr (List.mem_cons_of_mem _ hp)
  refine ⟨?_, fun p hp => ?_, fun p t' hp => ?_, fun t' p hp => ?_, fun t₁ t₂ p h₁ h₂ => ?_⟩
  · rw [herase]
    exact hnodup.2
  · rw [herase] at hp
    exact h.given p (hback p hp)
  · rw [herase]
    rw [hok.owner p] at hp
    split at hp
    · cases hp
    · next hne =>
        have hold := hperm.mem_iff.mp (h.tracked p t' hp)
        exact (List.mem_cons.mp hold).resolve_left hne
  · rw [herase]
    rcases update_pointer hp with ⟨-, hp⟩ | ⟨-, hp⟩
    · cases hp
      exact ⟨h.given ptr hkeys, hnodup.1⟩
    · obtain ⟨hlive, hnot⟩ := h.held t' p hp
      exact ⟨hlive, fun hp => hnot (hback p hp)⟩
  · rcases update_pointer h₁ with ⟨rfl, hp₁⟩ | ⟨-, hp₁⟩
    · rcases update_pointer h₂ with ⟨rfl, -⟩ | ⟨-, hp₂⟩
      · rfl
      · cases hp₁
        exact absurd hkeys (h.held t₂ ptr hp₂).2
    · rcases update_pointer h₂ with ⟨rfl, hp₂⟩ | ⟨-, hp₂⟩
      · cases hp₂
        exact absurd hkeys (h.held t₁ ptr hp₁).2
      · exact h.apart t₁ t₂ p hp₁ hp₂

theorem Placed.release (h : Placed s) (ht : (s.calls t).pointer = some ptr) :
    Placed { s with
      live := s.live.filter fun p => decide (p ≠ ptr)
      calls := Function.update s.calls t .idle } where
  nodup := h.nodup
  given p hp := by
    refine List.mem_filter.mpr ⟨h.given p hp, decide_eq_true ?_⟩
    rintro rfl
    exact (h.held t p ht).2 hp
  tracked := h.tracked
  held t' p hp := by
    rcases update_pointer hp with ⟨-, hheld⟩ | ⟨hne, hheld⟩
    · cases hheld
    · obtain ⟨hlive, hkeys⟩ := h.held t' p hheld
      refine ⟨List.mem_filter.mpr ⟨hlive, decide_eq_true ?_⟩, hkeys⟩
      rintro rfl
      exact hne (h.apart t' t p hheld ht)
  apart t₁ t₂ p h₁ h₂ := by
    rcases update_pointer h₁ with ⟨-, hp₁⟩ | ⟨-, hp₁⟩
    · cases hp₁
    · rcases update_pointer h₂ with ⟨-, hp₂⟩ | ⟨-, hp₂⟩
      · cases hp₂
      · exact h.apart t₁ t₂ p hp₁ hp₂

end Invariant

/-! ## Runs -/

/-- What holds of an adaptor in use. -/
structure Sound (s : State) : Prop where
  recording : Recording s.adaptor s.history
  placed : Placed s

theorem step_sound {s s' : State} {l : Label} (hs : Sound s) (h : step l s = some s') :
    Sound s' := by
  obtain ⟨hrecording, hplaced⟩ := hs
  cases l with
  | begin t =>
      simp only [step] at h
      split at h
      · cases h
        exact ⟨hrecording.begun t,
          hplaced.frame rfl (liveAllocations_concat _ _) rfl fun _ _ hp => hp⟩
      · cases h
  | finish t =>
      simp only [step] at h
      split at h
      · split at h
        · next hend =>
            cases h
            exact ⟨hrecording.ended hend, hplaced.frame rfl (liveAllocations_concat _ _)
              (endScoped_stack hend).2.1 fun _ _ hp => hp⟩
        · cases h
          exact ⟨hrecording, hplaced⟩
      · cases h
  | allocate t ptr bytes =>
      simp only [step] at h
      split at h
      · split at h
        · cases h
        · next hfresh =>
            cases h
            exact ⟨hrecording, hplaced.allocate hfresh⟩
      · cases h
  | record t =>
      simp only [step] at h
      split at h
      · next ptr bytes ht =>
          have hpointer : (s.calls t).pointer = some ptr := by
            rw [ht]
            rfl
          split at h
          · next a' hok =>
              cases h
              have hallocated := recordAllocate_allocated hok
              exact ⟨hrecording.allocated (hplaced.fresh hpointer) hallocated,
                hplaced.allocated hpointer hallocated⟩
          · cases h
            refine ⟨hrecording, hplaced.frame rfl rfl rfl fun t' p hp => ?_⟩
            rcases update_pointer hp with ⟨-, hp⟩ | ⟨-, hp⟩
            · cases hp
            · exact hp
      · cases h
  | deallocate t ptr bytes =>
      simp only [step] at h
      split at h
      · split at h
        · next hmem =>
            split at h
            · next a' hok =>
                cases h
                have hfreed := recordDeallocate_freed hok
                exact ⟨hrecording.freed hmem hfreed, hplaced.freed hmem hfreed⟩
            · cases h
        · cases h
      · cases h
  | release t =>
      simp only [step] at h
      split at h
      · next ptr ht =>
          cases h
          exact ⟨hrecording, hplaced.release (by rw [ht]; rfl)⟩
      · cases h

theorem new_sound : Sound .new where
  recording :=
    { nested := fun t => rfl
      owners := fun p => rfl
      current := rfl
      peak := ⟨⟨[], List.prefix_rfl, rfl⟩, by
        rintro n ⟨h, hprefix, rfl⟩
        rw [List.prefix_nil.mp hprefix]
        exact Int.le_refl 0⟩ }
  placed := ⟨.nil, nofun, nofun, nofun, nofun⟩

theorem reachable_sound {s : State} (hs : system.Reachable s) : Sound s := by
  refine hs.invariant ?_ fun s l s' h hstep => step_sound h hstep
  rintro s rfl
  exact new_sound

/-- In every run of any threads: the end of a scope returns the record of exactly what was charged
to its thread since the scope was begun, counted in order and without nesting, and it returns a
record only where a scope was begun; the main record has the bytes of the live allocations and
their running maximum; and no pointer is a duplicate. -/
theorem records_compose (s : State) (hs : system.Reachable s) :
    (∀ t before events, s.history = before ++ .begun t :: events → Balanced t events →
      ∃ a, endScopedMemoryRecord s.adaptor t =
        .ok (ofEvents ((Attribution.start.after (before ++ [.begun t])).charged t events), a)) ∧
    (∀ t ret a, endScopedMemoryRecord s.adaptor t = .ok (ret, a) →
      ∃ before events, s.history = before ++ .begun t :: events ∧ Balanced t events) ∧
    s.adaptor.mainRecord.current = liveBytes s.history ∧
    IsGreatest {n | ∃ h, h <+: s.history ∧ liveBytes h = n} s.adaptor.mainRecord.peak ∧
    ∀ t ptr bytes, s.calls t = .allocating ptr bytes →
      recordAllocate s.adaptor t ptr bytes ≠ .error .duplicateMemoryPointer := by
  obtain ⟨hrecording, hplaced⟩ := reachable_sound hs
  refine ⟨fun t before events hsplit hbalanced => ?_, fun t ret a hend => ?_,
    hrecording.current, hrecording.peak, fun t ptr bytes ht => ?_⟩
  · rw [endScoped_eq_ok]
    have hnested := hrecording.nested t
    rw [hsplit, scopes_append, scopes_cons, nextScopes_begun, hbalanced.scopes_eq,
      List.nil_append, List.map_cons, ← after_concat] at hnested
    exact ⟨_, hnested⟩
  · obtain ⟨rest, hstack⟩ := endScoped_eq_ok.mp ⟨a, hend⟩
    have hnested := hrecording.nested t
    rw [hstack] at hnested
    cases hscopes : Attribution.start.scopes t [] s.history with
    | nil =>
        rw [hscopes] at hnested
        cases hnested
    | cons inner outer =>
        obtain ⟨before, events, hsplit, hbalanced, -⟩ := exists_begun hscopes
        exact ⟨before, events, hsplit, hbalanced⟩
  · exact recordAllocate_ne_duplicate (hplaced.fresh (by rw [ht]; rfl))

/-- A subscope in which another thread frees what the scope around it allocated. -/
theorem records_compose_freed : ∃ s a, system.Reachable s ∧ endScopedMemoryRecord s.adaptor 1 =
    .ok ({ numCurrentAllocs := -1, current := -100 }, a) := by
  have hrun : [Label.begin 1, .allocate 1 5 100, .record 1, .begin 1, .deallocate 2 5 100].foldlM
      (fun s l => step l s) State.new = some _ := rfl
  have hreach : system.Reachable _ :=
    (System.Reach.init rfl).exec (fun l _ s₁ s₂ h => ⟨trivial, h⟩) hrun
  obtain ⟨a, ha⟩ := (records_compose _ hreach).1 1 [.begun 1, .allocated 1 5 100] [.freed 2 5 100]
    rfl (.other .nil nofun nofun)
  exact ⟨_, a, hreach, ha⟩

end Rapidsmpf.Memory.RmmResourceAdaptor
