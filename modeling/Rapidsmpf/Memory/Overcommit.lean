import Rapidsmpf.Memory.Resource
import Rapidsmpf.Lib.ListFacts
import Rapidsmpf.Lib.Transition

/-!
# Threads that reserve without overbooking

Any number of threads call `reserve` with `AllowOverbooking::NO`, `make_buffer` on the
reservations they were granted, `release`, and the destructors of reservations and buffers. The
atomic steps are those of `memory/buffer_resource.cpp`: `reserve` samples the available memory
before it takes the lock and decides under it, and `make_buffer` allocates before it releases the
reserved bytes under the lock.

`Fresh` is the condition under which a decision is sound: the sample does not count as available
what other calls have allocated and released since it was taken. Under it the allocated and the
reserved bytes together never pass the limit; `stale_sample` is a run without it that does.
-/

namespace Rapidsmpf.Memory.Overcommit

open Protocol ListFacts

/-- A reservation a thread was granted. -/
structure Reservation where
  memType : MemoryType
  size : Nat

/-- Where a thread is in its current call. -/
inductive Control where
  | idle
  /-- In `reserve`: the available memory is sampled, the lock is not yet taken. -/
  | sampled (t : MemoryType) (size : Nat) (available : Int)
  /-- In `make_buffer` on its `k`-th reservation: the buffer is allocated, the reserved bytes are
  not yet released. -/
  | allocated (t : MemoryType) (k size : Nat)
  /-- In `make_buffer`: `release` has thrown, the buffer is about to be destroyed. -/
  | unwinding (t : MemoryType) (size : Nat)

/-- A thread with the reservations and the buffers it owns. -/
structure Thread where
  control : Control := .idle
  reservations : List Reservation := []
  buffers : List (MemoryType × Nat) := []

/-- The counters of the resource and the threads. -/
structure State where
  allocated : MemoryType → Nat
  reserved : MemoryType → Nat
  threads : List Thread

inductive Label where
  | sample (i : Nat) (t : MemoryType) (size : Nat)
  | decide (i : Nat)
  | allocate (i k size : Nat)
  | release (i : Nat)
  | unwind (i : Nat)
  | releaseReservation (i k size : Nat)
  | destroyReservation (i k : Nat)
  | destroyBuffer (i k : Nat)

/-- Change one counter. -/
def adjust (c : MemoryType → Nat) (t : MemoryType) (f : Nat → Nat) : MemoryType → Nat :=
  Function.update c t (f (c t))

/-- Release `size` bytes of the `k`-th reservation of a thread, under the lock. -/
def releaseFrom (s : State) (th : Thread) (k size : Nat) :
    Except Failure ((MemoryType → Nat) × Thread) := do
  let some r := th.reservations[k]? | throw .undefined
  let (reserved, held) ← releaseBytes (s.reserved r.memType) r.size size
  return (Function.update s.reserved r.memType reserved,
    { th with reservations := th.reservations.set k { r with size := held } })

/-- One step of thread `i`. A step that is not enabled, and a call that throws and leaves
everything as it was, is an error. -/
def step (cfg : Config) (l : Label) (s : State) : Except Failure State :=
  match l with
  | .sample i t size => do
      let some th := s.threads[i]? | throw .undefined
      let .idle := th.control | throw .undefined
      checkResource cfg t
      let available ← memoryAvailable cfg s.allocated t
      return { s with threads := s.threads.set i { th with control := .sampled t size available } }
  | .decide i => do
      let some th := s.threads[i]? | throw .undefined
      let .sampled t size available := th.control | throw .undefined
      match decideReserve available (s.reserved t) size .no with
      | .error .undefined => throw .undefined
      | .error _ => return { s with threads := s.threads.set i { th with control := .idle } }
      | .ok (granted, _) =>
          return { s with
            reserved := adjust s.reserved t (· + granted)
            threads := s.threads.set i { th with
              control := .idle, reservations := th.reservations ++ [⟨t, granted⟩] } }
  | .allocate i k size => do
      let some th := s.threads[i]? | throw .undefined
      let .idle := th.control | throw .undefined
      let some r := th.reservations[k]? | throw .undefined
      return { s with
        allocated := adjust s.allocated r.memType (· + size)
        threads := s.threads.set i { th with control := .allocated r.memType k size } }
  | .release i => do
      let some th := s.threads[i]? | throw .undefined
      let .allocated t k size := th.control | throw .undefined
      match releaseFrom s th k size with
      | .error .undefined => throw .undefined
      | .error _ =>
          return { s with threads := s.threads.set i { th with control := .unwinding t size } }
      | .ok (reserved, th) =>
          return { s with
            reserved
            threads := s.threads.set i { th with
              control := .idle, buffers := th.buffers ++ [(t, size)] } }
  | .unwind i => do
      let some th := s.threads[i]? | throw .undefined
      let .unwinding t size := th.control | throw .undefined
      return { s with
        allocated := adjust s.allocated t (· - size)
        threads := s.threads.set i { th with control := .idle } }
  | .releaseReservation i k size => do
      let some th := s.threads[i]? | throw .undefined
      let .idle := th.control | throw .undefined
      let (reserved, th) ← releaseFrom s th k size
      return { s with reserved, threads := s.threads.set i th }
  | .destroyReservation i k => do
      let some th := s.threads[i]? | throw .undefined
      let .idle := th.control | throw .undefined
      let some r := th.reservations[k]? | throw .undefined
      let (reserved, th) ← releaseFrom s th k r.size
      return { s with
        reserved
        threads := s.threads.set i { th with reservations := th.reservations.eraseIdx k } }
  | .destroyBuffer i k => do
      let some th := s.threads[i]? | throw .undefined
      let .idle := th.control | throw .undefined
      let some b := th.buffers[k]? | throw .undefined
      return { s with
        allocated := adjust s.allocated b.1 (· - b.2)
        threads := s.threads.set i { th with buffers := th.buffers.eraseIdx k } }

/-- `n` threads on a resource of which nothing is reserved or allocated. -/
def State.initial (n : Nat) : State :=
  ⟨fun _ => 0, fun _ => 0, List.replicate n {}⟩

def system (cfg : Config) : System State Label where
  init s := ∃ n, s = .initial n
  step s l s' := step cfg l s = .ok s'

/-- The bytes a thread has allocated in a `make_buffer` that has not yet released them. -/
def Control.inFlight (t : MemoryType) : Control → Nat
  | .allocated t' _ size => if t' = t then size else 0
  | .unwinding t' size => if t' = t then size else 0
  | _ => 0

/-- The bytes of the `make_buffer` calls between their allocation and their release. -/
def inFlight (t : MemoryType) (s : State) : Nat :=
  (s.threads.map fun th => th.control.inFlight t).sum

/-- No `make_buffer` call is between its allocation and its release. -/
def Quiet (s : State) : Prop :=
  ∀ th ∈ s.threads, (∀ t k size, th.control ≠ .allocated t k size) ∧
    ∀ t size, th.control ≠ .unwinding t size

/-- A decision whose sample does not exceed the limit less the bytes that are allocated and no
longer reserved. -/
def Fresh (cfg : Config) (s : State) : Label → Prop
  | .decide i => ∀ th t size available, s.threads[i]? = some th →
      th.control = .sampled t size available →
      available + s.allocated t ≤ cfg.limit t + inFlight t s
  | _ => True

/-- The bytes of the buffers of a thread. -/
def Thread.bufferBytes (t : MemoryType) (th : Thread) : Nat :=
  (th.buffers.map fun b => if b.1 = t then b.2 else 0).sum

/-- What a thread has allocated and not given back. -/
def Thread.held (t : MemoryType) (th : Thread) : Nat :=
  th.bufferBytes t + th.control.inFlight t

/-- The buffer a thread is making is of the memory type of its reservation. -/
def Thread.Typed (th : Thread) : Prop :=
  ∀ t k size, th.control = .allocated t k size → ∃ r, th.reservations[k]? = some r ∧ r.memType = t

/-- The allocation counter is what the threads hold, and the buffers together with the reserved
bytes stay within the limit. -/
structure Within (limit : MemoryType → Int) (t : MemoryType) (s : State) : Prop where
  typed : ∀ th ∈ s.threads, th.Typed
  allocated : s.allocated t = (s.threads.map (Thread.held t)).sum
  within : ((s.threads.map (Thread.bufferBytes t)).sum : Int) + s.reserved t ≤ limit t

/-- What one step of a thread does to the counters of one memory type. -/
structure Effect (t : MemoryType) (s s' : State) (th th' : Thread) : Prop where
  typed : th'.Typed
  allocated : s'.allocated t + th.held t = s.allocated t + th'.held t
  reserved : s'.reserved t + th'.bufferBytes t ≤ s.reserved t + th.bufferBytes t

/-- A step changes one thread. Unless it grants a reservation, it leaves the buffers and the
reserved bytes of a memory type together no larger than they were. -/
def Moved (t : MemoryType) (l : Label) (s s' : State) : Prop :=
  ∃ i th th', s.threads[i]? = some th ∧ s'.threads = s.threads.set i th' ∧
    (Effect t s s' th th' ∨
      ∃ size available granted overbooking, l = .decide i ∧
        th.control = .sampled t size available ∧
        decideReserve available (s.reserved t) size .no = .ok (granted, overbooking) ∧
        s'.allocated t = s.allocated t ∧ s'.reserved t = s.reserved t + granted ∧
        th'.Typed ∧ th'.held t = th.held t ∧ th'.bufferBytes t = th.bufferBytes t)

section Step

variable {cfg : Config} {s s' : State} {t : MemoryType} {th th' : Thread} {i : Nat}

theorem held_sum (t : MemoryType) (s : State) :
    (s.threads.map (Thread.held t)).sum
      = (s.threads.map (Thread.bufferBytes t)).sum + inFlight t s :=
  List.sum_map_add

theorem adjust_eq (c : MemoryType → Nat) (t t' : MemoryType) (f : Nat → Nat) :
    adjust c t f t' = if t' = t then f (c t') else c t' := by
  by_cases ht : t' = t
  · subst ht
    simp [adjust]
  · simp [adjust, ht]

theorem Within.of_effect (hw : Within cfg.limit t s) (hi : s.threads[i]? = some th)
    (hthreads : s'.threads = s.threads.set i th') (he : Effect t s s' th th') :
    Within cfg.limit t s' := by
  have hheld := sum_map_set hi (Thread.held t) th'
  have hbuffers := sum_map_set hi (Thread.bufferBytes t) th'
  have hallocated := he.allocated
  have hreserved := he.reserved
  have hold := hw.allocated
  have hwithin := hw.within
  refine ⟨?_, ?_, ?_⟩
  · intro x hx
    rw [hthreads] at hx
    rcases List.mem_or_eq_of_mem_set hx with hx | rfl
    · exact hw.typed x hx
    · exact he.typed
  · rw [hthreads]
    omega
  · rw [hthreads]
    omega

theorem Thread.typed_idle (h : th.control = .idle) : th.Typed := by
  intro t k size hcontrol
  rw [h] at hcontrol
  cases hcontrol

/-- A release takes the bytes from the counter and leaves the buffers and the call alone. -/
theorem release_from_eq_ok {k size : Nat} {reserved : MemoryType → Nat}
    (h : releaseFrom s th k size = .ok (reserved, th')) :
    ∃ r, th.reservations[k]? = some r ∧ size ≤ s.reserved r.memType ∧
      reserved = adjust s.reserved r.memType (· - size) ∧
      th'.buffers = th.buffers ∧ th'.control = th.control := by
  rw [releaseFrom] at h
  split at h
  · next r hr =>
      obtain ⟨x, hx, hpure⟩ := Fallible.bind_eq_ok.mp h
      obtain ⟨-, hle, rfl⟩ := release_bytes_eq_ok hx
      cases Fallible.pure_eq_ok.mp hpure
      exact ⟨r, hr, hle, rfl, rfl, rfl⟩
  · cases h

/-- The counters after an idle thread releases from a reservation. -/
theorem Effect.of_release {k size : Nat} {reserved : MemoryType → Nat} {th₁ : Thread}
    (h : releaseFrom s th k size = .ok (reserved, th₁)) (hallocated : s'.allocated = s.allocated)
    (hreserved : s'.reserved = reserved) (hbuffers : th'.buffers = th₁.buffers)
    (hidle : th.control = .idle) (hidle' : th'.control = th₁.control) : Effect t s s' th th' := by
  obtain ⟨r, -, hle, rfl, hbuffers₁, hcontrol₁⟩ := release_from_eq_ok h
  rw [hbuffers₁] at hbuffers
  rw [hcontrol₁, hidle] at hidle'
  refine ⟨th'.typed_idle hidle', ?_, ?_⟩
  · rw [hallocated, Thread.held, Thread.held, Thread.bufferBytes, Thread.bufferBytes, hbuffers,
      hidle, hidle']
  · rw [hreserved, adjust_eq, Thread.bufferBytes, Thread.bufferBytes, hbuffers]
    split <;> omega

/-- A sample of the available memory. -/
theorem sample_effect {t₀ : MemoryType} {size : Nat} (t : MemoryType)
    (h : step cfg (.sample i t₀ size) s = .ok s') : Moved t (.sample i t₀ size) s s' := by
  simp only [step] at h
  split at h
  case h_2 => cases h
  case h_1 th hi =>
    split at h
    case h_2 => cases h
    case h_1 hidle =>
      obtain ⟨-, -, h₁⟩ := Fallible.bind_eq_ok.mp h
      obtain ⟨available, -, hpure⟩ := Fallible.bind_eq_ok.mp h₁
      cases Fallible.pure_eq_ok.mp hpure
      refine ⟨i, th, _, hi, rfl, .inl ⟨?_, ?_, le_rfl⟩⟩
      · intro t k size hcontrol
        cases hcontrol
      · simp [Thread.held, Thread.bufferBytes, hidle, Control.inFlight]

/-- A decision that grants adds the granted bytes to the counter of its memory type only. -/
theorem decide_effect (t : MemoryType)
    (h : step cfg (.decide i) s = .ok s') : Moved t (.decide i) s s' := by
  simp only [step] at h
  split at h
  case h_2 => cases h
  case h_1 th hi =>
    split at h
    case h_2 => cases h
    case h_1 t₀ size available hcontrol =>
      split at h
      · cases h
      · cases Fallible.pure_eq_ok.mp h
        refine ⟨i, th, _, hi, rfl, .inl ⟨Thread.typed_idle rfl, ?_, le_rfl⟩⟩
        simp [Thread.held, Thread.bufferBytes, hcontrol, Control.inFlight]
      · next granted overbooking hdecide =>
        cases Fallible.pure_eq_ok.mp h
        refine ⟨i, th, _, hi, rfl, ?_⟩
        -- the counters of the other memory types stay as they are
        by_cases ht : t₀ = t
        · subst ht
          refine .inr ⟨size, available, granted, overbooking, rfl, hcontrol, hdecide, rfl, ?_,
            Thread.typed_idle rfl, ?_, rfl⟩
          · simp [adjust]
          · simp [Thread.held, Thread.bufferBytes, hcontrol, Control.inFlight]
        · refine .inl ⟨Thread.typed_idle rfl, ?_, ?_⟩
          · simp [Thread.held, Thread.bufferBytes, hcontrol, Control.inFlight]
          · simp [adjust_eq, Ne.symm ht, Thread.bufferBytes]

/-- An allocation is held until it is released. -/
theorem allocate_effect {k size : Nat} (t : MemoryType)
    (h : step cfg (.allocate i k size) s = .ok s') : Moved t (.allocate i k size) s s' := by
  simp only [step] at h
  split at h
  case h_2 => cases h
  case h_1 th hi =>
    split at h
    case h_2 => cases h
    case h_1 hidle =>
      split at h
      case h_2 => cases h
      case h_1 r hr =>
        cases Fallible.pure_eq_ok.mp h
        refine ⟨i, th, _, hi, rfl, .inl ⟨?_, ?_, le_rfl⟩⟩
        · intro t k' size' hcontrol
          cases hcontrol
          exact ⟨r, hr, rfl⟩
        · simp only [adjust_eq, Thread.held, Thread.bufferBytes, hidle, Control.inFlight]
          by_cases ht : t = r.memType
          · simp only [ht, if_true]
            omega
          · simp [ht, Ne.symm ht]

/-- The bytes of a new buffer leave the reserved ones. -/
theorem release_effect (hw : Within cfg.limit t s)
    (h : step cfg (.release i) s = .ok s') : Moved t (.release i) s s' := by
  simp only [step] at h
  split at h
  case h_2 => cases h
  case h_1 th hi =>
    split at h
    case h_2 => cases h
    case h_1 t₀ k size hcontrol =>
      split at h
      · cases h
      · cases Fallible.pure_eq_ok.mp h
        refine ⟨i, th, _, hi, rfl, .inl ⟨?_, ?_, le_rfl⟩⟩
        · intro t k size hcontrol
          cases hcontrol
        · simp [Thread.held, Thread.bufferBytes, hcontrol, Control.inFlight]
      · next reserved th₁ hrelease =>
        cases Fallible.pure_eq_ok.mp h
        obtain ⟨r, hr, rfl⟩ := hw.typed th (List.mem_of_getElem? hi) _ _ _ hcontrol
        obtain ⟨r', hr', hle, rfl, hbuffers, -⟩ := release_from_eq_ok hrelease
        obtain rfl : r = r' := Option.some.inj (hr.symm.trans hr')
        refine ⟨i, th, _, hi, rfl, .inl ⟨Thread.typed_idle rfl, ?_, ?_⟩⟩
        · simp [Thread.held, Thread.bufferBytes, hcontrol, hbuffers, Control.inFlight]
        · -- the buffers of the thread grow by what its reservation loses
          simp only [adjust_eq, Thread.bufferBytes, hbuffers, List.map_append, List.sum_append,
            List.map_cons, List.map_nil, List.sum_singleton]
          by_cases ht : t = r.memType
          · subst ht
            simp only [if_true]
            omega
          · simp [ht, Ne.symm ht]

/-- The buffer of a `make_buffer` that has thrown is destroyed. -/
theorem unwind_effect (hw : Within cfg.limit t s)
    (h : step cfg (.unwind i) s = .ok s') : Moved t (.unwind i) s s' := by
  simp only [step] at h
  split at h
  case h_2 => cases h
  case h_1 th hi =>
    split at h
    case h_2 => cases h
    case h_1 t₀ size hcontrol =>
      cases Fallible.pure_eq_ok.mp h
      have hle := le_sum_map hi (Thread.held t)
      rw [← hw.allocated] at hle
      refine ⟨i, th, _, hi, rfl, .inl ⟨Thread.typed_idle rfl, ?_, le_rfl⟩⟩
      simp only [adjust_eq, Thread.held, Thread.bufferBytes, hcontrol, Control.inFlight]
        at hle ⊢
      by_cases ht : t = t₀
      · subst ht
        simp only [if_true] at hle ⊢
        omega
      · simp [ht, Ne.symm ht]

/-- A release from a reservation. -/
theorem release_reservation_effect {k size : Nat} (t : MemoryType)
    (h : step cfg (.releaseReservation i k size) s = .ok s') :
    Moved t (.releaseReservation i k size) s s' := by
  simp only [step] at h
  split at h
  case h_2 => cases h
  case h_1 th hi =>
    split at h
    case h_2 => cases h
    case h_1 hidle =>
      obtain ⟨⟨reserved, th₁⟩, hrelease, hpure⟩ := Fallible.bind_eq_ok.mp h
      cases Fallible.pure_eq_ok.mp hpure
      exact ⟨i, th, th₁, hi, rfl, .inl (.of_release hrelease rfl rfl rfl hidle rfl)⟩

/-- The destructor of a reservation releases what is left of it. -/
theorem destroy_reservation_effect {k : Nat} (t : MemoryType)
    (h : step cfg (.destroyReservation i k) s = .ok s') :
    Moved t (.destroyReservation i k) s s' := by
  simp only [step] at h
  split at h
  case h_2 => cases h
  case h_1 th hi =>
    split at h
    case h_2 => cases h
    case h_1 hidle =>
      split at h
      case h_2 => cases h
      case h_1 r hr =>
        obtain ⟨⟨reserved, th₁⟩, hrelease, hpure⟩ := Fallible.bind_eq_ok.mp h
        cases Fallible.pure_eq_ok.mp hpure
        exact ⟨i, th, _, hi, rfl, .inl (.of_release hrelease rfl rfl rfl hidle rfl)⟩

/-- The destructor of a buffer gives its bytes back. -/
theorem destroy_buffer_effect {k : Nat} (hw : Within cfg.limit t s)
    (h : step cfg (.destroyBuffer i k) s = .ok s') : Moved t (.destroyBuffer i k) s s' := by
  simp only [step] at h
  split at h
  case h_2 => cases h
  case h_1 th hi =>
    split at h
    case h_2 => cases h
    case h_1 hidle =>
      split at h
      case h_2 => cases h
      case h_1 b hb =>
        cases Fallible.pure_eq_ok.mp h
        -- what the thread holds is part of the counter, so the subtraction does not stop at zero
        have hle := le_sum_map hi (Thread.held t)
        rw [← hw.allocated] at hle
        have herase := sum_map_eraseIdx hb fun b => if b.1 = t then b.2 else 0
        refine ⟨i, th, _, hi, rfl, .inl ⟨Thread.typed_idle hidle, ?_, ?_⟩⟩
        · simp only [adjust_eq, Thread.held, Thread.bufferBytes] at hle ⊢
          by_cases ht : t = b.1
          · subst ht
            simp only [if_true] at herase ⊢
            omega
          · simp only [ht, Ne.symm ht, if_false] at herase ⊢
            omega
        · simp only [Thread.bufferBytes]
          omega

theorem step_effect {l : Label} (t : MemoryType) (hw : Within cfg.limit t s)
    (h : step cfg l s = .ok s') : Moved t l s s' := by
  cases l with
  | sample i t₀ size => exact sample_effect t h
  | decide i => exact decide_effect t h
  | allocate i k size => exact allocate_effect t h
  | release i => exact release_effect hw h
  | unwind i => exact unwind_effect hw h
  | releaseReservation i k size => exact release_reservation_effect t h
  | destroyReservation i k => exact destroy_reservation_effect t h
  | destroyBuffer i k => exact destroy_buffer_effect hw h

/-- A fresh decision grants no more than the limit has left. -/
theorem Within.step {l : Label} (hw : Within cfg.limit t s) (hfresh : Fresh cfg s l)
    (h : Overcommit.step cfg l s = .ok s') : Within cfg.limit t s' := by
  obtain ⟨i, th, th', hi, hthreads, heffect⟩ := step_effect t hw h
  rcases heffect with heffect | ⟨size, available, granted, overbooking, rfl, hcontrol, hdecide,
    hallocated, hreserved, htyped, hheld, hbuffers⟩
  · exact hw.of_effect hi hthreads heffect
  · have hsum := sum_map_set hi (Thread.held t) th'
    have hsum' := sum_map_set hi (Thread.bufferBytes t) th'
    have hcounter := hw.allocated
    have hwithin := hw.within
    have hsample := hfresh th t size available hi hcontrol
    have hsplit := held_sum t s
    obtain ⟨hover, hgranted⟩ := decide_reserve_eq_ok hdecide
    refine ⟨?_, ?_, ?_⟩
    · intro x hx
      rw [hthreads] at hx
      rcases List.mem_or_eq_of_mem_set hx with hx | rfl
      · exact hw.typed x hx
      · exact htyped
    · rw [hthreads]
      omega
    · rw [hthreads]
      rcases hgranted with ⟨rfl, hno⟩ | ⟨rfl, -, -⟩
      · -- the whole size is granted, so nothing is missing
        have hzero : overbooking = 0 := by
          rcases Nat.eq_zero_or_pos overbooking with hzero | hpos
          · exact hzero
          · cases hno hpos
        omega
      · omega

theorem Within.initial (hlimit : 0 ≤ cfg.limit t) (n : Nat) :
    Within cfg.limit t (.initial n) := by
  have hzero : ∀ f : Thread → Nat, f {} = 0 → ((State.initial n).threads.map f).sum = 0 := by
    intro f hf
    simp [State.initial, hf]
  refine ⟨?_, ?_, ?_⟩
  · intro th hth
    rw [List.eq_of_mem_replicate hth]
    exact Thread.typed_idle rfl
  · rw [hzero (Thread.held t) rfl]
    rfl
  · rw [hzero (Thread.bufferBytes t) rfl]
    simpa [State.initial] using hlimit

theorem quiet_of_idle (h : ∀ c ∈ s.threads.map (·.control), c = .idle) : Quiet s := by
  intro th hth
  rw [h _ (List.mem_map_of_mem hth)]
  exact ⟨fun _ _ _ => nofun, fun _ _ => nofun⟩

theorem in_flight_quiet (hq : Quiet s) (t : MemoryType) : inFlight t s = 0 := by
  refine List.sum_eq_zero fun x hx => ?_
  obtain ⟨th, hth, rfl⟩ := List.mem_map.mp hx
  obtain ⟨hallocated, hunwinding⟩ := hq th hth
  cases hcontrol : th.control with
  | idle => rfl
  | sampled t size available => rfl
  | allocated t k size => exact absurd hcontrol (hallocated t k size)
  | unwinding t size => exact absurd hcontrol (hunwinding t size)

/-- Runs in which every decision is made on a fresh sample never over-commit. -/
theorem never_overcommits (hlimit : 0 ≤ cfg.limit t) (hs : (system cfg).Reach (Fresh cfg) s)
    (hq : Quiet s) : (s.allocated t : Int) + s.reserved t ≤ cfg.limit t := by
  have hw : Within cfg.limit t s := by
    refine hs.invariant ?_ ?_
    · rintro s ⟨n, rfl⟩
      exact .initial hlimit n
    · rintro s l s' hw hfresh hstep
      exact hw.step hfresh hstep
  have hallocated := hw.allocated
  have hwithin := hw.within
  have hsplit := held_sum t s
  have hquiet := in_flight_quiet hq t
  omega

end Step

/-- A resource with 100 bytes of device memory. -/
def smallConfig : Config := ⟨fun _ => 100, false, false⟩

/-- While one thread is between its sample and the lock, another one reserves, allocates and
releases. -/
def lateDecision : List Label :=
  [.sample 1 .device 100, .sample 0 .device 100, .decide 0, .allocate 0 0 100, .release 0,
    .decide 1]

/-- Two threads ask for 60 of the 100 bytes at the same time, and one is refused. It samples again
while the other one is in `make_buffer`, and is granted the 40 bytes that are left. -/
theorem never_overcommits_two_threads :
    ∃ s, (system smallConfig).Reach (Fresh smallConfig) s ∧ Quiet s ∧ s.allocated .device = 60 ∧
      s.reserved .device = 40 ∧
      (s.allocated .device : Int) + s.reserved .device ≤ smallConfig.limit .device := by
  have hinit : (system smallConfig).Reach (Fresh smallConfig) (.initial 2) := .init ⟨2, rfl⟩
  have hfirst := hinit.step (l := Label.sample 0 .device 60) trivial rfl
  have hsecond := hfirst.step (l := Label.sample 1 .device 60) trivial rfl
  have hgranted := hsecond.step (l := Label.decide 0) (by
    intro th t size available hth hcontrol
    cases hth
    cases hcontrol
    decide) rfl
  have hrefused := hgranted.step (l := Label.decide 1) (by
    intro th t size available hth hcontrol
    cases hth
    cases hcontrol
    decide) rfl
  have hallocate := hrefused.step (l := Label.allocate 0 0 60) trivial rfl
  have hagain := hallocate.step (l := Label.sample 1 .device 40) trivial rfl
  have hrelease := hagain.step (l := Label.release 0) trivial rfl
  have hleft := hrelease.step (l := Label.decide 1) (by
    intro th t size available hth hcontrol
    cases hth
    cases hcontrol
    decide) rfl
  have hquiet : ∀ s : State, s.threads.map (·.control) = [.idle, .idle] → Quiet s :=
    fun s h => quiet_of_idle fun c hc => by simpa [h] using hc
  exact ⟨_, hleft, hquiet _ rfl, rfl, rfl, never_overcommits (by decide) hleft (hquiet _ rfl)⟩

/-- With a stale sample the resource is over-committed. -/
theorem stale_sample :
    ∃ s, (system smallConfig).Reachable s ∧ Quiet s ∧
      smallConfig.limit .device < (s.allocated .device : Int) + s.reserved .device := by
  have hrun : ∃ s, Fallible.run (step smallConfig) lateDecision (.initial 2) = .ok s ∧
      s.threads.map (·.control) = [.idle, .idle] ∧ s.allocated .device = 100 ∧
      s.reserved .device = 100 := ⟨_, rfl, rfl, rfl, rfl⟩
  obtain ⟨s, hrun, hcontrol, hallocated, hreserved⟩ := hrun
  have hinit : (system smallConfig).Reachable (.initial 2) := .init ⟨2, rfl⟩
  refine ⟨s, ?_, ?_, ?_⟩
  · exact hinit.run (fun l _ s₁ s₂ h => ⟨trivial, h⟩) hrun
  · exact quiet_of_idle fun c hc => by simpa [hcontrol] using hc
  · rw [hallocated, hreserved]
    decide

end Rapidsmpf.Memory.Overcommit
