import Rapidsmpf.Memory.Resource
import Rapidsmpf.Lib.ListFacts
import Rapidsmpf.Lib.Transition

/-!
# The accounting of reservations

`memory_reserved_` and the `MemoryReservation` objects of one buffer resource. An object is a
position of the table `objects`, which is empty after its destructor; every function that takes
or returns a reservation moves it as the source does, through temporaries that are destroyed.
The steps are the sections between two acquisitions of `mutex_`, so `try_reserve` and
`reserve_device_memory_and_spill` are calls in progress between their steps, and any other step
may come in between. What `reserve` sampled of the available memory, and what a spill returned,
is given with the step: nothing here depends on it.

`accounting` says that the counter of each memory type is the sum of the sizes of the live
reservations of that type in every reachable state, and what a call that fails leaves behind.
-/

namespace Rapidsmpf.Memory.Accounting

open Protocol ListFacts Fallible

/-- `MemoryReservation`. The flag `br` says whether its pointer to the resource is set. -/
structure MemoryReservation where
  memType : MemoryType
  br : Bool
  size : Nat

/-- A call that is between two of its steps. -/
inductive Call where
  /-- `try_reserve`, or `reserve_or_fail`, before the next memory type of its range. -/
  | tryReserve (size : Nat) (memTypes : List MemoryType) (orFail : Bool)
  /-- `reserve_device_memory_and_spill` with the local `reservation`, while it spills. -/
  | spilling (reservation ownOverbooking : Nat) (allow : AllowOverbooking)

/-- The counters, the objects, and the calls in progress. -/
structure State where
  reserved : MemoryType → Nat
  objects : List (Option MemoryReservation)
  calls : List Call

/-- Where a `make_buffer` fails, apart from what the reservation decides: not at all, at the check
of the stream, at the allocation, or after it has released the reserved bytes (the statistics, or
the copy of `move`). -/
inductive Fault where
  | none
  | stream
  | allocation
  | after
deriving DecidableEq

inductive Label where
  | reserve (t : MemoryType) (size : Nat) (allow : AllowOverbooking) (available : Int)
  | tryReserve (size : Nat) (memTypes : List MemoryType) (orFail : Bool)
  | next (call : Nat) (available : Int)
  | reserveDeviceMemoryAndSpill (size : Nat) (allow : AllowOverbooking) (available : Int)
  | spilled (call deficit amount : Nat)
  | spillThrew (call : Nat)
  | release (id size : Nat)
  | split (id size : Nat)
  | clear (id : Nat)
  | moveConstruct (id : Nat)
  | moveAssign (id other : Nat)
  | destroy (id : Nat)
  | makeBuffer (id size : Nat) (fault : Fault)
  | move (id : Nat) (source : MemoryType) (nbytes : Nat) (fault : Fault)

inductive Outcome where
  | pending
  | returned
  /-- An empty reservation or `std::nullopt`. -/
  | refused
  | threw (f : Failure)
deriving DecidableEq

/-- The live object at a position. -/
def State.get (s : State) (id : Nat) : Except Failure MemoryReservation :=
  match s.objects[id]? with
  | some (some r) => .ok r
  | _ => .error .undefined

/-- The private constructor. -/
def construct (s : State) (t : MemoryType) (size : Nat) : State :=
  { s with objects := s.objects ++ [some ⟨t, true, size⟩] }

/-- `BufferResource::release`. -/
def release (s : State) (id size : Nat) : Except Failure State := do
  let r ← s.get id
  let (reserved, held) ← releaseBytes (s.reserved r.memType) r.size size
  return { s with
    reserved := Function.update s.reserved r.memType reserved
    objects := s.objects.set id (some { r with size := held }) }

/-- `MemoryReservation::clear`. -/
def clear (s : State) (id : Nat) : Except Failure State := do
  let r ← s.get id
  if 0 < r.size then
    if r.br then release s id r.size else throw .undefined
  else return s

/-- `~MemoryReservation`. -/
def destroy (s : State) (id : Nat) : Except Failure State := do
  let s ← clear s id
  return { s with objects := s.objects.set id none }

/-- `MemoryReservation::split`. -/
def split (s : State) (id size : Nat) : Except Failure State := do
  let r ← s.get id
  if size ≤ r.size then
    return { s with
      objects := s.objects.set id (some { r with size := r.size - size })
        ++ [some ⟨r.memType, r.br, size⟩] }
  else throw .notBigEnough

/-- The move constructor. The new object is the last one. -/
def moveConstruct (s : State) (id : Nat) : Except Failure State := do
  let o ← s.get id
  return { s with
    objects := s.objects.set id (some { o with br := false, size := 0 }) ++ [some o] }

/-- The move assignment. For `id = other` the fields exchanged out of the object are the ones
stored back into it. -/
def moveAssign (s : State) (id other : Nat) : Except Failure State := do
  let s ← clear s id
  let o ← s.get other
  return { s with
    objects := (s.objects.set other (some { o with br := false, size := 0 })).set id (some o) }

/-- Return the local object `id` by moving it into the result: the result is the last object. -/
def returnMoved (s : State) (id : Nat) : Except Failure State := do
  destroy (← moveConstruct s id) id

/-- `BufferResource::reserve`: the reservation is the last object afterwards. Its size and the
overbooking are returned. -/
def reserve (cfg : Config) (s : State) (t : MemoryType) (size : Nat) (allow : AllowOverbooking)
    (available : Int) : Except Failure (State × Nat × Nat) := do
  checkResource cfg t
  let (granted, overbooking) ← decideReserve available (s.reserved t) size allow
  let s := { s with reserved := Function.update s.reserved t (s.reserved t + granted) }
  -- the pair takes the reservation over from a temporary
  let s ← returnMoved (construct s t granted) s.objects.length
  return (s, granted, overbooking)

/-- The last object, which a function has just returned. -/
def State.last (s : State) : Nat := s.objects.length - 1

/-- The end of a call that either changes the state or throws and leaves it. -/
def finish (s : State) (o : Outcome) : Except Failure State → Outcome × State
  | .ok s' => (o, s')
  | .error f => (.threw f, s)

/-- `make_buffer` on the reservation `id`. -/
def makeBuffer (s : State) (id size : Nat) (fault : Fault) : Outcome × State :=
  match fault with
  | .stream => (.threw .invalidStream, s)
  | .allocation => (.threw .external, s)
  | .none => finish s .returned (release s id size)
  | .after => finish s (.threw .external) (release s id size)

/-- The memory type has no resource, so `try_reserve` skips it. -/
def skips (cfg : Config) (t : MemoryType) : Bool :=
  (t = .disk && !cfg.disk) || (t = .pinnedHost && !cfg.pinned)

/-- The next iteration of `try_reserve`, or its end. -/
def tryNext (cfg : Config) (s : State) (call size : Nat) (memTypes : List MemoryType)
    (orFail : Bool) (available : Int) : Outcome × State :=
  let ended := { s with calls := s.calls.eraseIdx call }
  match memTypes with
  | [] => (if orFail then .threw .failedToReserve else .refused, ended)
  | t :: rest =>
      let later (s : State) : State :=
        { s with calls := s.calls.set call (.tryReserve size rest orFail) }
      if skips cfg t then (.pending, later s)
      else
        match reserve cfg s t size .no available with
        | .error f => (.threw f, ended)
        | .ok (s', granted, _) =>
            if granted = size then
              -- into the optional, and for `reserve_or_fail` out of it
              finish s .returned do
                let s' ← returnMoved s' s'.last
                let s' ← if orFail then returnMoved s' s'.last else pure s'
                return { s' with calls := s'.calls.eraseIdx call }
            else
              finish s .pending do
                let s' ← destroy s' s'.last
                return later s'

/-- The first part of `reserve_device_memory_and_spill`. -/
def reserveDeviceMemoryAndSpill (cfg : Config) (s : State) (size : Nat) (allow : AllowOverbooking)
    (available : Int) : Outcome × State :=
  match reserve cfg s .device size .yes available with
  | .error f => (.threw f, s)
  | .ok (s', _, totalOverbooking) =>
      if 0 < totalOverbooking then
        (.pending, { s' with
          calls := s'.calls ++ [.spilling s'.last (min size totalOverbooking) allow] })
      else finish s .returned (returnMoved s' s'.last)

/-- The end of a call that unwinds its local reservation. -/
def unwind (s : State) (call id : Nat) (f : Failure) : Outcome × State :=
  finish s (.threw f) do
    let s ← destroy s id
    return { s with calls := s.calls.eraseIdx call }

/-- One step, with its outcome for the call it belongs to. -/
def perform (cfg : Config) (l : Label) (s : State) : Outcome × State :=
  match l with
  | .reserve t size allow available =>
      match reserve cfg s t size allow available with
      | .error f => (.threw f, s)
      | .ok (s', granted, _) => (if granted = size then .returned else .refused, s')
  | .tryReserve size memTypes orFail =>
      (.pending, { s with calls := s.calls ++ [.tryReserve size memTypes orFail] })
  | .next call available =>
      match s.calls[call]? with
      | some (.tryReserve size memTypes orFail) =>
          tryNext cfg s call size memTypes orFail available
      | _ => (.threw .undefined, s)
  | .reserveDeviceMemoryAndSpill size allow available =>
      reserveDeviceMemoryAndSpill cfg s size allow available
  | .spilled call deficit amount =>
      match s.calls[call]? with
      | some (.spilling id ownOverbooking allow) =>
          if allow = .yes ∨ min ownOverbooking deficit ≤ amount then
            finish s .returned do
              let s ← returnMoved s id
              return { s with calls := s.calls.eraseIdx call }
          else unwind s call id .failedToSpill
      | _ => (.threw .undefined, s)
  | .spillThrew call =>
      match s.calls[call]? with
      | some (.spilling id _ _) => unwind s call id .external
      | _ => (.threw .undefined, s)
  | .release id size => finish s .returned (release s id size)
  | .split id size => finish s .returned (split s id size)
  | .clear id => finish s .returned (clear s id)
  | .moveConstruct id => finish s .returned (moveConstruct s id)
  | .moveAssign id other => finish s .returned (moveAssign s id other)
  | .destroy id => finish s .returned (destroy s id)
  | .makeBuffer id size fault => makeBuffer s id size fault
  | .move id source nbytes fault =>
      match s.get id with
      | .error f => (.threw f, s)
      | .ok r => if r.memType = source then (.returned, s) else makeBuffer s id nbytes fault

/-- A new buffer resource, and every step that has a meaning. -/
def system (cfg : Config) : System State Label where
  init s := s = ⟨fun _ => 0, [], []⟩
  step s l s' := ∃ o, perform cfg l s = (o, s') ∧ o ≠ .threw .undefined

/-- The bytes of an object that are of one memory type. -/
def weight (t : MemoryType) : Option MemoryReservation → Nat
  | some r => if r.memType = t then r.size else 0
  | none => 0

/-- The sizes of the live reservations of one memory type together. -/
def total (t : MemoryType) (s : State) : Nat :=
  (s.objects.map (weight t)).sum

/-- The counters are the totals, and only a reservation without bytes has no resource. -/
structure Sound (s : State) : Prop where
  balanced : ∀ t, s.reserved t = total t s
  bound : ∀ (id : Nat) (r : MemoryReservation), s.objects[id]? = some (some r) → 0 < r.size →
    r.br = true

section Operations

variable {cfg : Config} {s s' : State} {id : Nat} {r : MemoryReservation}

theorem get_eq_ok : s.get id = .ok r ↔ s.objects[id]? = some (some r) := by
  rw [State.get]
  split
  · next r' hr' => simp [hr']
  · next hnone =>
      constructor
      · intro h
        cases h
      · intro h
        exact absurd h (hnone r)

theorem get_eq_error {f : Failure} (h : s.get id = .error f) : f = .undefined := by
  rw [State.get] at h
  split at h
  · cases h
  · exact (Except.error.inj h).symm

/-- A live reservation is covered by the counter of its memory type. -/
theorem Sound.size_le (hs : Sound s) (hr : s.objects[id]? = some (some r)) :
    r.size ≤ s.reserved r.memType := by
  have hle := le_sum_map hr (weight r.memType)
  rw [hs.balanced]
  simpa [weight, total] using hle

/-- One object is replaced, and the counters follow. -/
theorem Sound.set {reserved : MemoryType → Nat} {calls : List Call}
    {a b : Option MemoryReservation} (hs : Sound s) (ha : s.objects[id]? = some a)
    (hreserved : ∀ t, reserved t + weight t a = s.reserved t + weight t b)
    (hb : ∀ r : MemoryReservation, b = some r → 0 < r.size → r.br = true) :
    Sound ⟨reserved, s.objects.set id b, calls⟩ := by
  refine ⟨fun t => ?_, fun k r hr => ?_⟩
  · have hset := sum_map_set ha (weight t) b
    have hbalanced := hs.balanced t
    have hcounter := hreserved t
    simp only [total] at hbalanced ⊢
    omega
  · rcases Nat.lt_or_ge id s.objects.length with hlt | hge
    · by_cases hk : id = k
      · subst hk
        rw [List.getElem?_set_self hlt] at hr
        exact hb r (Option.some.inj hr)
      · rw [List.getElem?_set_ne hk] at hr
        exact hs.bound k r hr
    · rw [List.set_eq_of_length_le hge] at hr
      exact hs.bound k r hr

/-- One object is added, and the counters follow. -/
theorem Sound.append {reserved : MemoryType → Nat} {calls : List Call}
    {b : Option MemoryReservation} (hs : Sound s)
    (hreserved : ∀ t, reserved t = s.reserved t + weight t b)
    (hb : ∀ r : MemoryReservation, b = some r → 0 < r.size → r.br = true) :
    Sound ⟨reserved, s.objects ++ [b], calls⟩ := by
  refine ⟨fun t => ?_, fun k r hr => ?_⟩
  · have hbalanced := hs.balanced t
    simp only [total] at hbalanced ⊢
    simp [hreserved t, hbalanced]
  · rw [List.getElem?_append] at hr
    split at hr
    · exact hs.bound k r hr
    · have hmem := List.mem_of_getElem? hr
      exact hb r (List.mem_singleton.mp hmem).symm

theorem Sound.with_calls (hs : Sound s) (calls : List Call) : Sound { s with calls } :=
  ⟨hs.balanced, hs.bound⟩

/-- A release fails only for a reservation that is too small. -/
theorem release_eq (hs : Sound s) (hr : s.objects[id]? = some (some r)) (size : Nat) :
    release s id size = if size ≤ r.size then
      .ok { s with
        reserved := Function.update s.reserved r.memType (s.reserved r.memType - size)
        objects := s.objects.set id (some { r with size := r.size - size }) }
    else .error .notBigEnough := by
  rw [release, get_eq_ok.mpr hr]
  simp only [bind, Except.bind, release_bytes_of_le (hs.size_le hr)]
  by_cases hsize : size ≤ r.size
  · simp only [if_pos hsize]
    rfl
  · simp only [if_neg hsize]

/-- `clear` never fails: it takes the whole size from the counter. -/
theorem clear_eq (hs : Sound s) (hr : s.objects[id]? = some (some r)) :
    clear s id = .ok { s with
      reserved := Function.update s.reserved r.memType (s.reserved r.memType - r.size)
      objects := s.objects.set id (some { r with size := 0 }) } := by
  rw [clear, get_eq_ok.mpr hr]
  simp only [bind, Except.bind]
  split
  · next hpos =>
      rw [if_pos (hs.bound id r hr hpos), release_eq hs hr, if_pos le_rfl, Nat.sub_self]
  · next hzero =>
      have hzero : r.size = 0 := by omega
      have hself : ({ r with size := 0 } : MemoryReservation) = r := by rw [← hzero]
      rw [hself, hzero, Nat.sub_zero, Function.update_eq_self, set_of_getElem? hr]
      rfl

theorem destroy_eq (hs : Sound s) (hr : s.objects[id]? = some (some r)) :
    destroy s id = .ok { s with
      reserved := Function.update s.reserved r.memType (s.reserved r.memType - r.size)
      objects := s.objects.set id none } := by
  rw [destroy, clear_eq hs hr]
  simp only [bind, Except.bind, List.set_set]
  rfl

/-- Returning a local object moves it to the end of the table. -/
theorem return_moved_eq (hr : s.objects[id]? = some (some r)) :
    returnMoved s id = .ok { s with objects := s.objects.set id none ++ [some r] } := by
  have hlt : id < s.objects.length := (List.getElem?_eq_some_iff.mp hr).1
  have hmoved : ((s.objects.set id (some { r with br := false, size := 0 })
      ++ [some r])[id]? : Option (Option MemoryReservation))
      = some (some { r with br := false, size := 0 }) := by
    rw [List.getElem?_append_left (by simpa using hlt), List.getElem?_set_self hlt]
  rw [returnMoved, moveConstruct, get_eq_ok.mpr hr]
  simp only [bind, Except.bind, pure, Except.pure]
  -- the object that is destroyed has no bytes left
  rw [destroy, clear, get_eq_ok.mpr hmoved]
  simp only [bind, Except.bind, pure, Except.pure, Nat.lt_irrefl, if_false]
  rw [List.set_append_left _ _ (by simpa using hlt), List.set_set]

theorem Sound.returned (hs : Sound s) (hr : s.objects[id]? = some (some r)) :
    Sound { s with objects := s.objects.set id none ++ [some r] } := by
  have hset :
      Sound ⟨fun t => s.reserved t - weight t (some r), s.objects.set id none, s.calls⟩ := by
    refine hs.set hr (fun t => ?_) (fun _ h => by cases h)
    have hle := le_sum_map hr (weight t)
    have hbalanced := hs.balanced t
    simp only [total] at hbalanced
    simp only [weight] at hle ⊢
    omega
  refine hset.append (fun t => ?_) ?_
  · have hle := le_sum_map hr (weight t)
    have hbalanced := hs.balanced t
    simp only [total] at hbalanced
    simp only
    omega
  · rintro r' h
    cases h
    exact hs.bound id r hr

/-- What `reserve` returns: a reservation of the size it granted, as the last object, with the
counter raised by as much. The temporary is destroyed. -/
theorem reserve_eq_ok {t : MemoryType} {size granted overbooking : Nat} {allow : AllowOverbooking}
    {available : Int}
    (h : reserve cfg s t size allow available = .ok (s', granted, overbooking)) :
    (granted = size ∨ granted = 0) ∧
      s' = ⟨Function.update s.reserved t (s.reserved t + granted),
        s.objects ++ [none, some ⟨t, true, granted⟩], s.calls⟩ := by
  rw [reserve] at h
  obtain ⟨-, -, h₁⟩ := bind_eq_ok.mp h
  obtain ⟨⟨g, o⟩, hdecide, h₂⟩ := bind_eq_ok.mp h₁
  obtain ⟨s₁, hmoved, hpure⟩ := bind_eq_ok.mp h₂
  cases pure_eq_ok.mp hpure
  rw [return_moved_eq (r := ⟨t, true, granted⟩) (by simp [construct])] at hmoved
  obtain rfl := Except.ok.inj hmoved
  refine ⟨?_, ?_⟩
  · rcases (decide_reserve_eq_ok hdecide).2 with ⟨hsize, -⟩ | ⟨hzero, -⟩
    · exact .inl hsize
    · exact .inr hzero
  · simp [construct]

/-- With overbooking the whole size is granted. -/
theorem reserve_yes_granted {t : MemoryType} {size granted overbooking : Nat} {available : Int}
    (h : reserve cfg s t size .yes available = .ok (s', granted, overbooking)) : granted = size := by
  rw [reserve] at h
  obtain ⟨-, -, h₁⟩ := bind_eq_ok.mp h
  obtain ⟨⟨g, o⟩, hdecide, h₂⟩ := bind_eq_ok.mp h₁
  obtain ⟨s₁, -, hpure⟩ := bind_eq_ok.mp h₂
  cases pure_eq_ok.mp hpure
  rcases (decide_reserve_eq_ok hdecide).2 with ⟨hsize, -⟩ | ⟨-, -, hno⟩
  · exact hsize
  · cases hno

theorem reserve_eq_error {t : MemoryType} {size : Nat} {allow : AllowOverbooking}
    {available : Int} {f : Failure} (h : reserve cfg s t size allow available = .error f) :
    f ≠ .corruptedReservationStat := by
  rw [reserve] at h
  rcases bind_eq_error.mp h with hcheck | ⟨-, -, h₁⟩
  · rw [checkResource] at hcheck
    split at hcheck
    · cases hcheck
      decide
    · split at hcheck
      · cases hcheck
        decide
      · cases hcheck
  rcases bind_eq_error.mp h₁ with hdecide | ⟨⟨g, o⟩, -, h₂⟩
  · rcases decide_reserve_eq_error hdecide with rfl | rfl <;> decide
  rcases bind_eq_error.mp h₂ with hmoved | ⟨_, -, hpure⟩
  · rw [return_moved_eq (r := ⟨t, true, g⟩) (by simp [construct])] at hmoved
    cases hmoved
  · cases hpure

/-- A reservation that was just made is accounted for. -/
theorem Sound.reserved (hs : Sound s) (t : MemoryType) (size : Nat) :
    Sound ⟨Function.update s.reserved t (s.reserved t + size),
      s.objects ++ [none, some ⟨t, true, size⟩], s.calls⟩ := by
  have hnone : Sound ⟨s.reserved, s.objects ++ [none], s.calls⟩ :=
    hs.append (fun t => rfl) (fun _ h => by cases h)
  have hsome : Sound ⟨Function.update s.reserved t (s.reserved t + size),
      (s.objects ++ [none]) ++ [some ⟨t, true, size⟩], s.calls⟩ := by
    refine hnone.append (fun t' => ?_) (fun r h => by cases h; exact fun _ => rfl)
    by_cases ht : t' = t
    · subst ht
      simp [weight]
    · simp [weight, ht, Ne.symm ht]
  simpa using hsome

end Operations

/-- An operation that keeps the accounting, or throws something else than its corruption. -/
def Fine : Except Failure State → Prop
  | .ok s => Sound s
  | .error f => f ≠ .corruptedReservationStat

section Fine

variable {s s' : State} {id : Nat}

theorem Fine.bind {x : Except Failure State} {g : State → Except Failure State} (hx : Fine x)
    (hg : ∀ s, Sound s → Fine (g s)) : Fine (x >>= g) := by
  cases x with
  | ok s => exact hg s hx
  | error f => exact hx

theorem Fine.undefined : Fine (.error .undefined) := by
  intro h
  cases h

theorem get_cases (s : State) (id : Nat) :
    s.get id = .error .undefined ∨ ∃ r, s.objects[id]? = some (some r) := by
  cases hget : s.get id with
  | ok r => exact .inr ⟨r, get_eq_ok.mp hget⟩
  | error f =>
      obtain rfl := get_eq_error hget
      exact .inl rfl

/-- The counter and the weight of an object that loses some of its bytes. -/
theorem update_add_weight {r : MemoryReservation} (hs : Sound s)
    (hr : s.objects[id]? = some (some r)) {size : Nat} (hsize : size ≤ r.size) (t : MemoryType) :
    Function.update s.reserved r.memType (s.reserved r.memType - size) t + weight t (some r)
      = s.reserved t + weight t (some { r with size := r.size - size }) := by
  have hle := hs.size_le hr
  by_cases ht : t = r.memType
  · subst ht
    simp only [Function.update_self, weight, if_true]
    omega
  · simp [weight, ht, Ne.symm ht]

theorem release_fine (hs : Sound s) (id size : Nat) : Fine (release s id size) := by
  rcases get_cases s id with hnone | ⟨r, hr⟩
  · rw [release, hnone]
    exact .undefined
  · rw [release_eq hs hr]
    split
    · next hsize =>
        refine hs.set hr (update_add_weight hs hr hsize) ?_
        rintro r' h hpos
        cases h
        exact hs.bound id r hr (by simp only at hpos; omega)
    · exact Failure.noConfusion

theorem clear_fine (hs : Sound s) (id : Nat) : Fine (clear s id) := by
  rcases get_cases s id with hnone | ⟨r, hr⟩
  · rw [clear, hnone]
    exact .undefined
  · rw [clear_eq hs hr]
    have hcounter := update_add_weight hs hr (le_refl r.size)
    rw [Nat.sub_self] at hcounter
    refine hs.set hr hcounter ?_
    rintro r' h hpos
    cases h
    cases hpos

theorem destroy_fine (hs : Sound s) (id : Nat) : Fine (destroy s id) := by
  rcases get_cases s id with hnone | ⟨r, hr⟩
  · rw [destroy, clear, hnone]
    exact .undefined
  · rw [destroy_eq hs hr]
    have hcounter := update_add_weight hs hr (le_refl r.size)
    refine hs.set hr (fun t => ?_) (fun _ h => by cases h)
    rw [hcounter t, Nat.sub_self]
    simp [weight]

theorem return_moved_fine (hs : Sound s) (id : Nat) : Fine (returnMoved s id) := by
  rcases get_cases s id with hnone | ⟨r, hr⟩
  · rw [returnMoved, moveConstruct, hnone]
    exact .undefined
  · rw [return_moved_eq hr]
    exact hs.returned hr

/-- The bytes of one object are divided between it and a new one. -/
theorem Sound.divide {r : MemoryReservation} {br : Bool} {kept given : Nat} (hs : Sound s)
    (hr : s.objects[id]? = some (some r)) (hsize : kept + given = r.size)
    (hbr : 0 < kept → br = true) :
    Sound { s with
      objects := s.objects.set id (some ⟨r.memType, br, kept⟩) ++
        [some ⟨r.memType, r.br, given⟩] } := by
  have hbalanced : ∀ t, s.reserved t - weight t (some ⟨r.memType, r.br, given⟩) + weight t (some r)
      = s.reserved t + weight t (some ⟨r.memType, br, kept⟩) := by
    intro t
    have hle := hs.size_le hr
    by_cases ht : r.memType = t
    · subst ht
      simp only [weight, if_true]
      omega
    · simp [weight, ht]
  have hset : Sound ⟨fun t => s.reserved t - weight t (some ⟨r.memType, r.br, given⟩),
      s.objects.set id (some ⟨r.memType, br, kept⟩), s.calls⟩ := by
    refine hs.set hr hbalanced ?_
    rintro r' h
    cases h
    exact hbr
  refine hset.append (fun t => ?_) ?_
  · have hle := hs.size_le hr
    by_cases ht : r.memType = t
    · subst ht
      simp only [weight, if_true]
      omega
    · simp [weight, ht]
  · rintro r' h hpos
    cases h
    exact hs.bound id r hr (by simp only at hpos; omega)

theorem split_fine (hs : Sound s) (id size : Nat) : Fine (split s id size) := by
  rcases get_cases s id with hnone | ⟨r, hr⟩
  · rw [split, hnone]
    exact .undefined
  · rw [split, get_eq_ok.mpr hr]
    simp only [bind, Except.bind]
    split
    · next hsize =>
        refine hs.divide hr (Nat.sub_add_cancel hsize) fun hpos => ?_
        exact hs.bound id r hr (by omega)
    · exact Failure.noConfusion

theorem move_construct_fine (hs : Sound s) (id : Nat) : Fine (moveConstruct s id) := by
  rcases get_cases s id with hnone | ⟨r, hr⟩
  · rw [moveConstruct, hnone]
    exact .undefined
  · rw [moveConstruct, get_eq_ok.mpr hr]
    exact hs.divide hr (Nat.zero_add r.size) fun hpos => absurd hpos (Nat.lt_irrefl 0)

/-- A move assignment keeps the accounting also onto a reservation with bytes, which it gives
back, and onto itself. -/
theorem move_assign_fine (hs : Sound s) (id other : Nat) : Fine (moveAssign s id other) := by
  rcases get_cases s id with hnone | ⟨r, hr⟩
  · rw [moveAssign, clear, hnone]
    exact .undefined
  · have hclear := clear_fine hs id
    rw [moveAssign]
    rw [clear_eq hs hr] at hclear ⊢
    generalize hs₁ : ({ s with
      reserved := Function.update s.reserved r.memType (s.reserved r.memType - r.size)
      objects := s.objects.set id (some { r with size := 0 }) } : State) = s₁ at hclear ⊢
    have hlt : id < s.objects.length := (List.getElem?_eq_some_iff.mp hr).1
    have hid : s₁.objects[id]? = some (some { r with size := 0 }) := by
      rw [← hs₁]
      exact List.getElem?_set_self hlt
    simp only [bind, Except.bind]
    rcases get_cases s₁ other with hnone | ⟨o, ho⟩
    · rw [hnone]
      exact .undefined
    · rw [get_eq_ok.mpr ho]
      simp only [pure, Except.pure]
      have hsound : Sound s₁ := hclear
      by_cases heq : other = id
      · -- the object is stored back into itself
        subst heq
        rw [List.set_set, set_of_getElem? ho]
        exact hsound
      · have hle : ∀ t, weight t (some o) ≤ s₁.reserved t := fun t => by
          rw [hsound.balanced t]
          exact le_sum_map ho (weight t)
        have hmoved : Sound ⟨fun t => s₁.reserved t - weight t (some o),
            s₁.objects.set other (some { o with br := false, size := 0 }), s₁.calls⟩ := by
          refine hsound.set ho (fun t => ?_) ?_
          · have hle := hle t
            have hempty : weight t (some { o with br := false, size := 0 }) = 0 := by simp [weight]
            omega
          · rintro r' h hpos
            cases h
            cases hpos
        refine hmoved.set (a := some { r with size := 0 }) ?_ (fun t => ?_) ?_
        · simp only
          rw [List.getElem?_set_ne heq]
          exact hid
        · have hle := hle t
          have hempty : weight t (some { r with size := 0 }) = 0 := by simp [weight]
          simp only
          omega
        · rintro r' h
          cases h
          exact hsound.bound other o ho

end Fine

/-- The call ended without giving what it was asked for. -/
def Outcome.Failed : Outcome → Prop
  | .pending => False
  | .returned => False
  | .refused => True
  | .threw _ => True

/-- Every object is as it was, and those that came hold nothing. -/
def Kept (s s' : State) : Prop :=
  ∃ more, s'.objects = s.objects ++ more ∧ ∀ t, total t s' = total t s

/-- The call has destroyed its local reservation, and everything else is as it was. -/
def Unwound (l : Label) (s s' : State) : Prop :=
  ∃ call id own allow r,
    ((∃ deficit amount, l = .spilled call deficit amount) ∨ l = .spillThrew call) ∧
    s.calls[call]? = some (.spilling id own allow) ∧ s.objects[id]? = some (some r) ∧
    s'.objects = s.objects.set id none ∧ ∀ t, total t s' + weight t (some r) = total t s

/-- The call has failed after its buffer was made: the bytes of that buffer are taken from its
reservation, and everything else is as it was. -/
def Consumed (l : Label) (s s' : State) : Prop :=
  ∃ id size r, (l = .makeBuffer id size .after ∨ ∃ source, l = .move id source size .after) ∧
    s.objects[id]? = some (some r) ∧ size ≤ r.size ∧
    s'.objects = s.objects.set id (some { r with size := r.size - size }) ∧
    ∀ t, total t s' + weight t (some { r with size := size }) = total t s

/-- The call has made its local reservation and goes on to spill, and everything else is as it
was. -/
def Began (l : Label) (s s' : State) : Prop :=
  ∃ size allow available own, l = .reserveDeviceMemoryAndSpill size allow available ∧
    s'.calls = s.calls ++ [.spilling (s.objects.length + 1) own allow] ∧
    s'.objects = s.objects ++ [none, some ⟨.device, true, size⟩] ∧
    ∀ t, total t s' = total t s + weight t (some ⟨.device, true, size⟩)

/-- What holds after a step. -/
structure Result (l : Label) (s : State) (x : Outcome × State) : Prop where
  sound : Sound x.2
  uncorrupted : x.1 ≠ .threw .corruptedReservationStat
  failed : x.1.Failed → x.1 ≠ .threw .undefined →
    Kept s x.2 ∨ Unwound l s x.2 ∨ Consumed l s x.2
  pending : x.1 = .pending → Kept s x.2 ∨ Began l s x.2

section Result

variable {cfg : Config} {s s' : State} {l : Label} {o : Outcome} {f : Failure}

theorem Kept.refl (s : State) (calls : List Call) : Kept s { s with calls } :=
  ⟨[], (List.append_nil _).symm, fun _ => rfl⟩

theorem Result.threw (hs : Sound s) (hf : f ≠ .corruptedReservationStat) (calls : List Call) :
    Result l s (.threw f, { s with calls }) :=
  ⟨hs.with_calls calls, fun h => hf (Outcome.threw.inj h), fun _ _ => .inl (.refl s calls),
    Outcome.noConfusion⟩

theorem Result.returned (hs : Sound s') : Result l s (.returned, s') :=
  ⟨hs, nofun, fun h => h.elim, nofun⟩

/-- A call that goes on later and has left every reservation as it was. -/
theorem Result.goesOn (hs : Sound s') (hkept : Kept s s') : Result l s (.pending, s') :=
  ⟨hs, nofun, fun h => h.elim, fun _ => .inl hkept⟩

/-- A call that keeps the accounting, and that fails only by throwing. -/
theorem Result.finish {x : Except Failure State} (hs : Sound s) (hx : Fine x) :
    Result l s (Accounting.finish s .returned x) := by
  cases x with
  | ok s' => exact .returned hx
  | error f => exact .threw hs hx s.calls

theorem make_buffer_result {id size : Nat} {fault : Fault} (hs : Sound s)
    (hl : l = .makeBuffer id size fault ∨ ∃ source, l = .move id source size fault) :
    Result l s (makeBuffer s id size fault) := by
  cases fault with
  | none => exact .finish hs (release_fine hs id size)
  | stream => exact .threw hs Failure.noConfusion s.calls
  | allocation => exact .threw hs Failure.noConfusion s.calls
  | after =>
      have hfine := release_fine hs id size
      rw [makeBuffer]
      rcases get_cases s id with hnone | ⟨r, hr⟩
      · rw [release, hnone]
        exact .threw hs Failure.noConfusion s.calls
      · rw [release_eq hs hr] at hfine ⊢
        split
        · next hsize =>
            rw [if_pos hsize] at hfine
            refine ⟨hfine, nofun, fun _ _ =>
              .inr (.inr ⟨id, size, r, hl, hr, hsize, rfl, fun t => ?_⟩), nofun⟩
            have hset := sum_map_set hr (weight t) (some { r with size := r.size - size })
            simp only [total, Accounting.finish]
            by_cases ht : r.memType = t
            · subst ht
              simp only [weight, if_true] at hset ⊢
              omega
            · simp only [weight, ht, if_false] at hset ⊢
              omega
        · exact .threw hs Failure.noConfusion s.calls

theorem unwind_result {call id own : Nat} {allow : AllowOverbooking} (hs : Sound s)
    (hl : (∃ deficit amount, l = .spilled call deficit amount) ∨ l = .spillThrew call)
    (hcall : s.calls[call]? = some (.spilling id own allow)) (hf : f ≠ .corruptedReservationStat) :
    Result l s (unwind s call id f) := by
  have hfine := destroy_fine hs id
  rw [unwind]
  rcases get_cases s id with hnone | ⟨r, hr⟩
  · rw [destroy, clear, hnone]
    exact .threw hs Failure.noConfusion s.calls
  · rw [destroy_eq hs hr] at hfine ⊢
    refine ⟨Sound.with_calls hfine _, fun h => hf (Outcome.threw.inj h),
      fun _ _ => .inr (.inl ?_), nofun⟩
    refine ⟨call, id, own, allow, r, hl, hcall, hr, rfl, fun t => ?_⟩
    have hset := sum_map_set hr (weight t) none
    simp only [total, bind, Except.bind, pure, Except.pure, Accounting.finish]
    simp only [weight] at hset ⊢
    omega

/-- A refused reservation adds nothing. -/
theorem Kept.refused (s : State) (t : MemoryType) :
    Kept s ⟨Function.update s.reserved t (s.reserved t + 0),
      s.objects ++ [none, some ⟨t, true, 0⟩], s.calls⟩ :=
  ⟨_, rfl, fun t' => by simp [total, weight]⟩

theorem Fine.with_calls {x : Except Failure State} (hx : Fine x) (calls : State → List Call) :
    Fine (x >>= fun s => pure { s with calls := calls s }) :=
  hx.bind fun s hs => Sound.with_calls hs (calls s)

/-- The reservation of a refused attempt is destroyed, and the call goes on. -/
theorem refused_attempt {t : MemoryType} (hs : Sound s) (calls : State → List Call) :
    Result l s (Accounting.finish s .pending do
      let s' ← destroy ⟨Function.update s.reserved t (s.reserved t + 0),
        s.objects ++ [none, some ⟨t, true, 0⟩], s.calls⟩ (s.objects.length + 1)
      return { s' with calls := calls s' }) := by
  have hlast : (s.objects ++ [none, some ⟨t, true, 0⟩])[s.objects.length + 1]? =
      some (some ⟨t, true, 0⟩) := by
    rw [List.getElem?_append_right (Nat.le_add_right _ 1), Nat.add_sub_cancel_left]
    rfl
  have hdestroyed : (s.objects ++ [none, some (MemoryReservation.mk t true 0)]).set
      (s.objects.length + 1) none = s.objects ++ [none, none] := by
    rw [List.set_append_right _ _ (Nat.le_add_right _ 1), Nat.add_sub_cancel_left]
    rfl
  have hfine := destroy_fine (hs.reserved t 0) (s.objects.length + 1)
  rw [destroy_eq (hs.reserved t 0) hlast] at hfine ⊢
  refine Result.goesOn (Sound.with_calls hfine _) ?_
  refine ⟨[none, none], hdestroyed, fun t' => ?_⟩
  show (((s.objects ++ [none, some (MemoryReservation.mk t true 0)]).set
    (s.objects.length + 1) none).map (weight t')).sum = total t' s
  rw [hdestroyed]
  simp [total, weight]

theorem try_next_result {call size : Nat} {memTypes : List MemoryType} {orFail : Bool}
    {available : Int} (hs : Sound s) :
    Result l s (tryNext cfg s call size memTypes orFail available) := by
  have hended : Sound { s with calls := s.calls.eraseIdx call } := hs.with_calls _
  cases memTypes with
  | nil =>
      rw [tryNext]
      split
      · exact .threw hs Failure.noConfusion _
      · exact ⟨hended, nofun, fun _ _ => .inl (.refl s _), nofun⟩
  | cons t rest =>
      rw [tryNext]
      split
      · exact .goesOn (hs.with_calls _) (.refl s _)
      · cases hreserve : reserve cfg s t size .no available with
        | error f => exact .threw hs (reserve_eq_error hreserve) _
        | ok x =>
            obtain ⟨s', granted, overbooking⟩ := x
            obtain ⟨hgranted, rfl⟩ := reserve_eq_ok hreserve
            have hmade := hs.reserved t granted
            simp only
            split
            · refine .finish hs ((return_moved_fine hmade _).bind fun s₁ hs₁ => ?_)
              split
              · exact Fine.with_calls (return_moved_fine hs₁ _) fun s => s.calls.eraseIdx call
              · exact hs₁.with_calls _
            · next hne =>
                obtain rfl : granted = 0 := hgranted.resolve_left hne
                have hlast : State.last ⟨Function.update s.reserved t (s.reserved t + 0),
                    s.objects ++ [none, some ⟨t, true, 0⟩], s.calls⟩ = s.objects.length + 1 := by
                  simp [State.last]
                rw [hlast]
                exact refused_attempt hs _

theorem reserve_device_memory_and_spill_result {size : Nat} {allow : AllowOverbooking}
    {available : Int} (hs : Sound s) :
    Result (.reserveDeviceMemoryAndSpill size allow available) s
      (reserveDeviceMemoryAndSpill cfg s size allow available) := by
  rw [reserveDeviceMemoryAndSpill]
  cases hreserve : reserve cfg s .device size .yes available with
  | error f => exact .threw hs (reserve_eq_error hreserve) s.calls
  | ok x =>
      obtain ⟨s', granted, overbooking⟩ := x
      obtain rfl := reserve_yes_granted hreserve
      obtain ⟨-, rfl⟩ := reserve_eq_ok hreserve
      have hmade := hs.reserved .device granted
      simp only
      split
      · refine ⟨hmade.with_calls _, nofun, fun h => h.elim, fun _ => .inr ?_⟩
        refine ⟨granted, allow, available, min granted overbooking, rfl, ?_, rfl, fun t => ?_⟩
        · simp [State.last]
        · simp [total, weight]
      · exact .finish hs (return_moved_fine hmade _)

/-- Every step keeps the accounting, and says what it does to it when it fails. -/
theorem perform_result (cfg : Config) (l : Label) (hs : Sound s) :
    Result l s (perform cfg l s) := by
  have hundefined : Result l s (.threw .undefined, s) := .threw hs Failure.noConfusion s.calls
  cases l with
  | reserve t size allow available =>
      rw [perform]
      cases hreserve : reserve cfg s t size allow available with
      | error f => exact .threw hs (reserve_eq_error hreserve) s.calls
      | ok x =>
          obtain ⟨s', granted, overbooking⟩ := x
          obtain ⟨hgranted, rfl⟩ := reserve_eq_ok hreserve
          simp only
          split
          · exact .returned (hs.reserved t granted)
          · next hne =>
              obtain rfl : granted = 0 := hgranted.resolve_left hne
              exact ⟨hs.reserved t 0, nofun, fun _ _ => .inl (.refused s t), nofun⟩
  | tryReserve size memTypes orFail => exact .goesOn (hs.with_calls _) (.refl s _)
  | next call available =>
      rw [perform]
      split
      · exact try_next_result hs
      · exact hundefined
  | reserveDeviceMemoryAndSpill size allow available =>
      exact reserve_device_memory_and_spill_result hs
  | spilled call deficit amount =>
      rw [perform]
      split
      · next id own allow hcall =>
          split
          · exact .finish hs (Fine.with_calls (return_moved_fine hs id) _)
          · exact unwind_result hs (.inl ⟨deficit, amount, rfl⟩) hcall Failure.noConfusion
      · exact hundefined
  | spillThrew call =>
      rw [perform]
      split
      · next id own allow hcall =>
          exact unwind_result hs (.inr rfl) hcall Failure.noConfusion
      · exact hundefined
  | release id size => exact .finish hs (release_fine hs id size)
  | split id size => exact .finish hs (split_fine hs id size)
  | clear id => exact .finish hs (clear_fine hs id)
  | moveConstruct id => exact .finish hs (move_construct_fine hs id)
  | moveAssign id other => exact .finish hs (move_assign_fine hs id other)
  | destroy id => exact .finish hs (destroy_fine hs id)
  | makeBuffer id size fault => exact make_buffer_result hs (.inl rfl)
  | move id source nbytes fault =>
      rw [perform]
      cases hget : s.get id with
      | error f =>
          obtain rfl := get_eq_error hget
          exact hundefined
      | ok r =>
          simp only
          split
          · exact .returned hs
          · exact make_buffer_result hs (.inr ⟨source, rfl⟩)

theorem reachable_sound (hs : (system cfg).Reachable s) : Sound s := by
  refine hs.invariant ?_ ?_
  · rintro s rfl
    exact ⟨fun t => rfl, fun id r hr => by cases hr⟩
  · rintro s l s' hs ⟨o, hperform, -⟩
    have hresult := perform_result cfg l hs
    rw [hperform] at hresult
    exact hresult.sound

/-- In every reachable state the counters are the totals of the live reservations and no call
finds them corrupted. A call that throws or is refused leaves every reservation as it was, but for
the one that its unwinding destroys, and for the bytes that a buffer has taken over before a
later part of the call failed. So does every step a call goes on after, but for the local
reservation that `reserve_device_memory_and_spill` begins with. -/
theorem accounting (hs : (system cfg).Reachable s) :
    (∀ t, s.reserved t = total t s) ∧
      (∀ l, (perform cfg l s).1 ≠ .threw .corruptedReservationStat) ∧
      (∀ l o s', perform cfg l s = (o, s') → o.Failed → o ≠ .threw .undefined →
        Kept s s' ∨ Unwound l s s' ∨ Consumed l s s') ∧
      ∀ l s', perform cfg l s = (.pending, s') → Kept s s' ∨ Began l s s' := by
  have hsound := reachable_sound hs
  refine ⟨hsound.balanced, fun l => (perform_result cfg l hsound).uncorrupted, ?_, ?_⟩
  · intro l o s' hperform hfailed hdefined
    have hresult := perform_result cfg l hsound
    rw [hperform] at hresult
    exact hresult.failed hfailed hdefined
  · intro l s' hperform
    have hresult := perform_result cfg l hsound
    rw [hperform] at hresult
    exact hresult.pending rfl

end Result

/-- A resource with a disk. -/
def diskConfig : Config := ⟨fun _ => 100, false, true⟩

/-- Ten bytes of disk are reserved. -/
def diskReserved : State :=
  ⟨Function.update (fun _ => 0) .disk 10, [none, some ⟨.disk, true, 10⟩], []⟩

theorem disk_reserved_reachable : (system diskConfig).Reachable diskReserved := by
  have hinit : (system diskConfig).Reachable ⟨fun _ => 0, [], []⟩ := .init rfl
  exact hinit.next (l := Label.reserve .disk 10 .no 100) ⟨.returned, rfl, nofun⟩

/-- While ten bytes of disk are reserved, a `try_reserve` of 200 bytes is between its attempts. -/
def attempting : State := { diskReserved with calls := [.tryReserve 200 [.device, .host] false] }

theorem attempting_reachable : (system diskConfig).Reachable attempting :=
  disk_reserved_reachable.next (l := Label.tryReserve 200 [.device, .host] false)
    ⟨.pending, rfl, nofun⟩

theorem accounting_attempting :
    (∀ t, attempting.reserved t = total t attempting) ∧
      (∀ l, (perform diskConfig l attempting).1 ≠ .threw .corruptedReservationStat) ∧
      (∀ l o s', perform diskConfig l attempting = (o, s') → o.Failed → o ≠ .threw .undefined →
        Kept attempting s' ∨ Unwound l attempting s' ∨ Consumed l attempting s') ∧
      ∀ l s', perform diskConfig l attempting = (.pending, s') →
        Kept attempting s' ∨ Began l attempting s' :=
  accounting attempting_reachable

/-- A buffer is moved to disk and the transfer fails: the call throws, its reservation is not
destroyed, and the ten bytes are gone from it. -/
theorem failed_copy_consumes :
    ∃ s l s', (system diskConfig).Reachable s ∧
      perform diskConfig l s = (.threw .external, s') ∧
      s.objects = [none, some ⟨.disk, true, 10⟩] ∧ s'.objects = [none, some ⟨.disk, true, 0⟩] ∧
      total .disk s = 10 ∧ total .disk s' = 0 :=
  ⟨diskReserved, .move 1 .host 10 .after, _, disk_reserved_reachable, rfl, rfl, rfl, rfl, rfl⟩

end Rapidsmpf.Memory.Accounting
