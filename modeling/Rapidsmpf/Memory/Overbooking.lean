import Mathlib
import Rapidsmpf.Memory.Resource
import Rapidsmpf.Lib.ListFacts
import Rapidsmpf.Lib.Transition

/-!
# Concurrent reservations that spill

Any number of callers are in `reserve_device_memory_and_spill` with `AllowOverbooking::NO`. A
caller samples the available memory, reserves with overbooking under the lock of the resource,
and, if that overbooks, calls `spill_to_make_headroom` of `memory/spill_manager.cpp`, which runs
under the lock of the spill manager: it measures the deficit and calls the spill functions one
after the other. The caller is then judged on its own share of the overbooking.

The spill functions free the bytes they return, and nothing else allocates, frees or reserves
device memory. `paid_back` bounds the overbooking by the initial one and the shares of the callers
that have not yet returned.
-/

namespace Rapidsmpf.Memory.Overbooking

open Protocol ListFacts

/-- Where a caller is. From `waiting` on it holds a reservation of `size` bytes, until it has
thrown. -/
inductive Caller where
  | start (size : Nat)
  /-- In `reserve`, before the lock. -/
  | sampled (size : Nat) (available : Int)
  /-- Before `spill_to_make_headroom`. -/
  | waiting (size own : Nat)
  /-- Under the spill lock, in `memory_available_for_reservation` before its lock. -/
  | measuring (size own : Nat) (available : Int)
  /-- Under the spill lock, in the loop of `spill_unsafe` with so many functions left. -/
  | spilling (size own deficit spilled functions : Nat)
  /-- Before the check of what was spilled. -/
  | judging (size own deficit spilled : Nat)
  /-- An exception is on its way, the reservation is not yet destroyed. -/
  | unwinding (size own : Nat)
  | returned (size : Nat)
  | threw

structure State where
  allocated : Nat
  reserved : Nat
  /-- The caller that holds the spill lock. -/
  holder : Option Nat
  callers : List Caller

inductive Label where
  | sample (i : Nat)
  | reserve (i : Nat)
  | lock (i : Nat)
  | measure (i : Nat)
  /-- A spill function frees bytes and returns their number. -/
  | spill (i freed : Nat)
  /-- A spill function frees bytes and throws. -/
  | spillThrows (i freed : Nat)
  | unlock (i : Nat)
  | judge (i : Nat)
  | unwind (i : Nat)

/-- Caller `i` goes on as `c`. -/
def State.put (s : State) (i : Nat) (c : Caller) : State :=
  { s with callers := s.callers.set i c }

/-- One step of a caller, with `functions` spill functions registered. -/
def step (cfg : Config) (functions : Nat) (l : Label) (s : State) : Except Failure State :=
  match l with
  | .sample i => do
      let some (.start size) := s.callers[i]? | throw .undefined
      let available ← memoryAvailable cfg (fun _ => s.allocated) .device
      return s.put i (.sampled size available)
  | .reserve i => do
      let some (.sampled size available) := s.callers[i]? | throw .undefined
      match decideReserve available s.reserved size .yes with
      | .error .undefined => throw .undefined
      | .error _ => return s.put i .threw
      | .ok (granted, totalOverbooking) =>
          let s := { s with reserved := s.reserved + granted }
          if 0 < totalOverbooking then return s.put i (.waiting size (min size totalOverbooking))
          return s.put i (.returned size)
  | .lock i => do
      let some (.waiting size own) := s.callers[i]? | throw .undefined
      let none := s.holder | throw .undefined
      let available ← memoryAvailable cfg (fun _ => s.allocated) .device
      return { s with holder := some i }.put i (.measuring size own available)
  | .measure i => do
      let some (.measuring size own available) := s.callers[i]? | throw .undefined
      match availableForReservation available s.reserved with
      | .error .undefined => throw .undefined
      | .error _ => return { s with holder := none }.put i (.unwinding size own)
      | .ok headroom =>
          if 0 ≤ headroom then return { s with holder := none }.put i (.judging size own 0 0)
          let deficit ← signed (0 - headroom)
          return s.put i (.spilling size own deficit.toNat 0 functions)
  | .spill i freed => do
      let some (.spilling size own deficit spilled (left + 1)) := s.callers[i]? | throw .undefined
      if spilled < deficit ∧ freed ≤ s.allocated then
        return { s with allocated := s.allocated - freed }.put i
          (.spilling size own deficit (spilled + freed) left)
      else throw .undefined
  | .spillThrows i freed => do
      let some (.spilling size own deficit spilled (_ + 1)) := s.callers[i]? | throw .undefined
      if spilled < deficit ∧ freed ≤ s.allocated then
        return { s with allocated := s.allocated - freed, holder := none }.put i
          (.unwinding size own)
      else throw .undefined
  | .unlock i => do
      let some (.spilling size own deficit spilled left) := s.callers[i]? | throw .undefined
      if deficit ≤ spilled ∨ left = 0 then
        return { s with holder := none }.put i (.judging size own deficit spilled)
      else throw .undefined
  | .judge i => do
      let some (.judging size own deficit spilled) := s.callers[i]? | throw .undefined
      if min own deficit ≤ spilled then return s.put i (.returned size)
      return s.put i (.unwinding size own)
  | .unwind i => do
      let some (.unwinding size _) := s.callers[i]? | throw .undefined
      let (reserved, _) ← releaseBytes s.reserved size size
      return { s with reserved }.put i .threw

/-- Callers that start while `allocated₀` bytes are allocated and `reserved₀` are reserved. -/
def system (cfg : Config) (functions allocated₀ reserved₀ : Nat) : System State Label where
  init s := s.allocated = allocated₀ ∧ s.reserved = reserved₀ ∧ s.holder = none ∧
    ∀ c ∈ s.callers, ∃ size, c = .start size
  step s l s' := step cfg functions l s = .ok s'

/-- `memory_available_for_reservation` of device memory. -/
def availableNow (cfg : Config) (allocated reserved : Nat) : Int :=
  cfg.limit .device - allocated - reserved

/-- The own overbooking of a caller that has reserved and not yet returned or thrown. -/
def Caller.own : Caller → Nat
  | .waiting _ own => own
  | .measuring _ own _ => own
  | .spilling _ own _ _ _ => own
  | .judging _ own _ _ => own
  | .unwinding _ own => own
  | _ => 0

/-- The size of the reservation a caller holds. -/
def Caller.held : Caller → Nat
  | .waiting size _ => size
  | .measuring size _ _ => size
  | .spilling size _ _ _ _ => size
  | .judging size _ _ _ => size
  | .unwinding size _ => size
  | .returned size => size
  | _ => 0

/-- The caller has returned or thrown. -/
def Caller.Finished (c : Caller) : Prop :=
  c = .threw ∨ ∃ size, c = .returned size

/-- What a caller still owes: its own overbooking, until it has spilled enough. -/
def Caller.owed : Caller → Nat
  | .judging _ own deficit spilled => if min own deficit ≤ spilled then 0 else own
  | c => c.own

/-- The caller is under the spill lock. -/
def Caller.Locked : Caller → Prop
  | .measuring _ _ _ => True
  | .spilling _ _ _ _ _ => True
  | _ => False

/-- What the callers owe together. -/
def owed (s : State) : Nat :=
  (s.callers.map Caller.owed).sum

/-- The deficit of the reservations: positive when they overbook. -/
def deficitNow (cfg : Config) (s : State) : Int :=
  -availableNow cfg s.allocated s.reserved

/-- What is true of a caller on its own: its samples are not above what is available, and its own
overbooking is at most its size. -/
def Caller.Consistent (cfg : Config) (s : State) : Caller → Prop
  | .sampled _ available => available ≤ cfg.limit .device - s.allocated
  | .waiting size own => own ≤ size
  | .measuring size own available => own ≤ size ∧ available = cfg.limit .device - s.allocated
  | .spilling size own _ _ _ => own ≤ size
  | .judging size own _ _ => own ≤ size
  | .unwinding size own => own ≤ size
  | _ => True

/-- What the callers owe covers the deficit beyond the initial one. A caller that spills has
lowered its share by what it has spilled, and lowers the deficit it has measured. -/
structure Covered (cfg : Config) (base : Int) (reserved₀ : Nat) (s : State) : Prop where
  consistent : ∀ c ∈ s.callers, c.Consistent cfg s
  locked : ∀ (i : Nat) (c : Caller), s.callers[i]? = some c → c.Locked → s.holder = some i
  reserved : s.reserved = reserved₀ + (s.callers.map Caller.held).sum
  covered : deficitNow cfg s ≤ base + owed s
  share : ∀ (i size own deficit spilled functions : Nat),
    s.callers[i]? = some (Caller.spilling size own deficit spilled functions) →
    deficitNow cfg s + own ≤ base + owed s + max 0 ((own : Int) - spilled)
  measured : ∀ (i size own deficit spilled functions : Nat),
    s.callers[i]? = some (Caller.spilling size own deficit spilled functions) →
    deficitNow cfg s + own ≤ max 0 ((deficit : Int) - spilled) + owed s

section Step

variable {cfg : Config} {functions reserved₀ : Nat} {base : Int} {s s' : State} {i : Nat}
  {c c' : Caller}

/-- A step that changes caller `i` from `c` to `c'`. What the step adds to the deficit the caller
owes, or the caller owes the whole deficit, or it is the one under the spill lock and the others
owe enough. Memory is freed under the spill lock only. -/
structure Moves (cfg : Config) (base : Int) (s s' : State) (i : Nat) (c c' : Caller) : Prop where
  callers : s'.callers = s.callers.set i c'
  held : s'.reserved + c.held = s.reserved + c'.held
  owed : deficitNow cfg s' + c.owed ≤ deficitNow cfg s + c'.owed ∨ deficitNow cfg s' ≤ c'.owed ∨
    s.holder = some i ∧ deficitNow cfg s' ≤ base + Overbooking.owed s'
  freed : s'.allocated ≤ s.allocated
  holder : s'.allocated = s.allocated ∧ s'.holder = s.holder ∨ s.holder = some i ∨
    s'.allocated = s.allocated ∧ s.holder = none
  locked : c'.Locked → s'.holder = some i
  consistent : c'.Consistent cfg s'

/-- The other callers stay consistent. -/
theorem Moves.others (hm : Moves cfg base s s' i c c') (hc : Covered cfg base reserved₀ s) {j : Nat}
    {d : Caller} (hj : s.callers[j]? = some d) (hji : j ≠ i) : d.Consistent cfg s' := by
  have hd := hc.consistent d (List.mem_of_getElem? hj)
  have hfreed := hm.freed
  cases d with
  | sampled size available =>
      simp only [Caller.Consistent] at hd ⊢
      omega
  | measuring size own available =>
      -- the caller holds the spill lock, so nobody else has freed memory
      have hlock := hc.locked j _ hj trivial
      refine ⟨hd.1, ?_⟩
      rcases hm.holder with ⟨hsame, -⟩ | hi | ⟨hsame, -⟩
      · rw [hsame]
        exact hd.2
      · rw [hlock] at hi
        exact absurd (Option.some.inj hi) hji
      · rw [hsame]
        exact hd.2
  | start size => exact hd
  | waiting size own => exact hd
  | spilling size own deficit spilled functions => exact hd
  | judging size own deficit spilled => exact hd
  | unwinding size own => exact hd
  | returned size => exact hd
  | threw => exact hd

/-- Another caller under the spill lock is still under it. -/
theorem Moves.others_locked (hm : Moves cfg base s s' i c c') (hc : Covered cfg base reserved₀ s)
    {j : Nat} {d : Caller} (hj : s.callers[j]? = some d) (hji : j ≠ i) (hlocked : d.Locked) :
    s'.holder = some j := by
  have hlock := hc.locked j d hj hlocked
  rcases hm.holder with ⟨-, hsame⟩ | hi | ⟨-, hnone⟩
  · rw [hsame]
    exact hlock
  · rw [hlock] at hi
    exact absurd (Option.some.inj hi) hji
  · rw [hlock] at hnone
    cases hnone

/-- What two callers owe is part of what all of them owe. -/
theorem owed_add_le {j : Nat} {d : Caller} (hj : s.callers[j]? = some d)
    (hi : s.callers[i]? = some c) (hji : j ≠ i) (callers : s'.callers = s.callers.set i c') :
    d.owed + c'.owed ≤ owed s' := by
  have hlt : i < s.callers.length := (List.getElem?_eq_some_iff.mp hi).1
  have hi' : s'.callers[i]? = some c' := by
    rw [callers]
    exact List.getElem?_set_self hlt
  have herase := sum_map_set hi' Caller.owed .threw
  have hj' : (s'.callers.set i .threw)[j]? = some d := by
    rw [List.getElem?_set_ne (Ne.symm hji), callers, List.getElem?_set_ne (Ne.symm hji)]
    exact hj
  have hle := le_sum_map hj' Caller.owed
  have hzero : Caller.owed .threw = 0 := rfl
  rw [owed]
  omega

/-- A step of this kind keeps the cover, given what it says about the caller itself. -/
theorem Covered.of_moves (hbase : 0 ≤ base) (hc : Covered cfg base reserved₀ s)
    (hi : s.callers[i]? = some c) (hm : Moves cfg base s s' i c c')
    (hself : ∀ size own deficit spilled functions,
      c' = .spilling size own deficit spilled functions →
      deficitNow cfg s' + own ≤ base + Overbooking.owed s' + max 0 ((own : Int) - spilled) ∧
        deficitNow cfg s' + own ≤ max 0 ((deficit : Int) - spilled) + Overbooking.owed s') :
    Covered cfg base reserved₀ s' := by
  have hlt : i < s.callers.length := (List.getElem?_eq_some_iff.mp hi).1
  have hget : ∀ j d, s'.callers[j]? = some d →
      j = i ∧ d = c' ∨ j ≠ i ∧ s.callers[j]? = some d := by
    intro j d hj
    rw [hm.callers] at hj
    exact getElem?_set_cases hi hj
  have howed : owed s' + c.owed = owed s + c'.owed := by
    rw [owed, hm.callers]
    exact sum_map_set hi Caller.owed c'
  have hself_le : c'.owed ≤ owed s' := by
    have hi' : s'.callers[i]? = some c' := by
      rw [hm.callers]
      exact List.getElem?_set_self hlt
    exact le_sum_map hi' Caller.owed
  refine ⟨?_, ?_, ?_, ?_, ?_, ?_⟩
  · intro d hd
    obtain ⟨j, hj⟩ := List.getElem?_of_mem hd
    rcases hget j d hj with ⟨rfl, rfl⟩ | ⟨hji, hj'⟩
    · exact hm.consistent
    · exact hm.others hc hj' hji
  · intro j d hj hlocked
    rcases hget j d hj with ⟨rfl, rfl⟩ | ⟨hji, hj'⟩
    · exact hm.locked hlocked
    · exact hm.others_locked hc hj' hji hlocked
  · have hsum := sum_map_set hi Caller.held c'
    have hreserved := hc.reserved
    have hheld := hm.held
    rw [hm.callers]
    omega
  · have hcovered := hc.covered
    rcases hm.owed with howes | hall | ⟨-, hothers⟩
    · omega
    · omega
    · exact hothers
  · intro j size own deficit spilled functions hj
    rcases hget j _ hj with ⟨rfl, heq⟩ | ⟨hji, hj'⟩
    · exact (hself size own deficit spilled functions heq.symm).1
    · have hshare := hc.share j size own deficit spilled functions hj'
      have hboth := owed_add_le hj' hi hji hm.callers
      have hown : Caller.owed (.spilling size own deficit spilled functions) = own := rfl
      rcases hm.owed with howes | hall | ⟨hlock, -⟩
      · omega
      · omega
      · rw [hc.locked j _ hj' trivial] at hlock
        exact absurd (Option.some.inj hlock) hji
  · intro j size own deficit spilled functions hj
    rcases hget j _ hj with ⟨rfl, heq⟩ | ⟨hji, hj'⟩
    · exact (hself size own deficit spilled functions heq.symm).2
    · have hmeasured := hc.measured j size own deficit spilled functions hj'
      have hboth := owed_add_le hj' hi hji hm.callers
      have hown : Caller.owed (.spilling size own deficit spilled functions) = own := rfl
      rcases hm.owed with howes | hall | ⟨hlock, -⟩
      · omega
      · omega
      · rw [hc.locked j _ hj' trivial] at hlock
        exact absurd (Option.some.inj hlock) hji

theorem memory_available_device {allocated : Nat} {x : Int}
    (h : memoryAvailable cfg (fun _ => allocated) .device = .ok x) :
    x = cfg.limit .device - allocated :=
  signed_eq_ok h

/-- A caller samples the available memory: nothing is owed yet. -/
theorem Covered.sample (hbase : 0 ≤ base) (hc : Covered cfg base reserved₀ s)
    (h : Overbooking.step cfg functions (.sample i) s = .ok s') :
    Covered cfg base reserved₀ s' := by
  simp only [Overbooking.step] at h
  split at h
  case h_2 => cases h
  case h_1 size hi =>
    obtain ⟨available, havailable, hpure⟩ := Fallible.bind_eq_ok.mp h
    cases Fallible.pure_eq_ok.mp hpure
    obtain rfl := memory_available_device havailable
    refine hc.of_moves hbase hi ⟨rfl, rfl, .inl le_rfl, le_rfl, .inl ⟨rfl, rfl⟩, ?_, le_rfl⟩ ?_
    · intro hlocked
      exact hlocked.elim
    · intro _ _ _ _ _ heq
      cases heq

/-- A caller that gets its reservation owes its overbooking: its sample was not above what was
available. -/
theorem Covered.reserve (hbase : 0 ≤ base) (hc : Covered cfg base reserved₀ s)
    (h : Overbooking.step cfg functions (.reserve i) s = .ok s') :
    Covered cfg base reserved₀ s' := by
  simp only [Overbooking.step] at h
  split at h
  case h_2 => cases h
  case h_1 size available hi =>
    have hsample : available ≤ cfg.limit .device - s.allocated :=
      hc.consistent _ (List.mem_of_getElem? hi)
    split at h
    · cases h
    · cases Fallible.pure_eq_ok.mp h
      refine hc.of_moves hbase hi
        ⟨rfl, rfl, .inl le_rfl, le_rfl, .inl ⟨rfl, rfl⟩, fun hlocked => hlocked.elim, trivial⟩
        ?_
      intro _ _ _ _ _ heq
      cases heq
    · next granted overbooking hdecide =>
      obtain ⟨hover, hgranted⟩ := decide_reserve_eq_ok hdecide
      obtain ⟨rfl, -⟩ : granted = size ∧ _ :=
        hgranted.resolve_right (fun hno => by cases hno.2.2)
      split at h
      · cases Fallible.pure_eq_ok.mp h
        refine hc.of_moves hbase hi ⟨rfl, ?_, ?_, le_rfl, .inl ⟨rfl, rfl⟩,
          fun hlocked => hlocked.elim, Nat.min_le_left _ _⟩ ?_
        · simp [State.put, Caller.held]
        · -- the sample is not above what is available, so the overbooking is not too small
          simp only [deficitNow, availableNow, State.put, Caller.owed, Caller.own]
          omega
        · intro _ _ _ _ _ heq
          cases heq
      · cases Fallible.pure_eq_ok.mp h
        refine hc.of_moves hbase hi ⟨rfl, ?_, .inr (.inl ?_), le_rfl, .inl ⟨rfl, rfl⟩,
          fun hlocked => hlocked.elim, trivial⟩ ?_
        · simp [State.put, Caller.held]
        · -- no overbooking was seen, so the deficit does not pass zero
          simp only [deficitNow, availableNow, State.put, Caller.owed, Caller.own]
          omega
        · intro _ _ _ _ _ heq
          cases heq

/-- A caller takes the spill lock and samples again. -/
theorem Covered.lock (hbase : 0 ≤ base) (hc : Covered cfg base reserved₀ s)
    (h : Overbooking.step cfg functions (.lock i) s = .ok s') : Covered cfg base reserved₀ s' := by
  simp only [Overbooking.step] at h
  split at h
  case h_2 => cases h
  case h_1 size own hi =>
    split at h
    case h_2 => cases h
    case h_1 hnone =>
      obtain ⟨available, havailable, hpure⟩ := Fallible.bind_eq_ok.mp h
      cases Fallible.pure_eq_ok.mp hpure
      have hown : own ≤ size := hc.consistent _ (List.mem_of_getElem? hi)
      refine hc.of_moves hbase hi ⟨rfl, rfl, .inl le_rfl, le_rfl, .inr (.inr ⟨rfl, hnone⟩),
        fun _ => rfl, hown, memory_available_device havailable⟩ ?_
      intro _ _ _ _ _ heq
      cases heq

/-- A caller under the spill lock finds no deficit, or starts to spill it. -/
theorem Covered.measure (hbase : 0 ≤ base) (hc : Covered cfg base reserved₀ s)
    (h : Overbooking.step cfg functions (.measure i) s = .ok s') :
    Covered cfg base reserved₀ s' := by
  simp only [Overbooking.step] at h
  split at h
  case h_2 => cases h
  case h_1 size own available hi =>
    have hholder := hc.locked i _ hi trivial
    obtain ⟨hown, hsample⟩ : own ≤ size ∧ available = cfg.limit .device - s.allocated :=
      hc.consistent _ (List.mem_of_getElem? hi)
    split at h
    · cases h
    · cases Fallible.pure_eq_ok.mp h
      refine hc.of_moves hbase hi ⟨rfl, rfl, .inl le_rfl, le_rfl, .inr (.inl hholder),
        fun hlocked => hlocked.elim, hown⟩ ?_
      intro _ _ _ _ _ heq
      cases heq
    · next headroom hheadroom =>
      obtain rfl := available_for_reservation_eq_ok hheadroom
      split at h
      · next hpos =>
          cases Fallible.pure_eq_ok.mp h
          refine hc.of_moves hbase hi ⟨rfl, rfl, .inr (.inl ?_), le_rfl, .inr (.inl hholder),
            fun hlocked => hlocked.elim, hown⟩ ?_
          · simp only [deficitNow, availableNow, State.put]
            omega
          · intro _ _ _ _ _ heq
            cases heq
      · next hneg =>
          obtain ⟨deficit, hdeficit, hpure⟩ := Fallible.bind_eq_ok.mp h
          cases Fallible.pure_eq_ok.mp hpure
          obtain rfl := signed_eq_ok hdeficit
          have hmoves : Moves cfg base s (s.put i (.spilling size own
              (0 - (available - (s.reserved : Int))).toNat 0 functions)) i
              (.measuring size own available) _ :=
            ⟨rfl, rfl, .inl le_rfl, le_rfl, .inl ⟨rfl, rfl⟩, fun _ => hholder, hown⟩
          have howed : owed (s.put i (.spilling size own
              (0 - (available - (s.reserved : Int))).toNat 0 functions)) + own
              = owed s + own := sum_map_set hi Caller.owed _
          have hcovered := hc.covered
          have hle : own ≤ owed s := le_sum_map hi Caller.owed
          refine hc.of_moves hbase hi hmoves ?_
          intro size' own' deficit' spilled' functions' heq
          cases heq
          -- nothing has been freed since the sample, so this is the deficit there is
          simp only [deficitNow, availableNow, State.put] at hcovered howed ⊢
          constructor <;> omega

/-- A spill function lowers the deficit by what it has freed. -/
theorem Covered.spill {freed : Nat} (hbase : 0 ≤ base) (hc : Covered cfg base reserved₀ s)
    (h : Overbooking.step cfg functions (.spill i freed) s = .ok s') :
    Covered cfg base reserved₀ s' := by
  simp only [Overbooking.step] at h
  split at h
  case h_2 => cases h
  case h_1 size own deficit spilled left hi =>
    split at h
    case isFalse => cases h
    case isTrue hcond =>
      cases Fallible.pure_eq_ok.mp h
      have hholder := hc.locked i _ hi trivial
      have hown : own ≤ size := hc.consistent _ (List.mem_of_getElem? hi)
      have hshare := hc.share _ _ _ _ _ _ hi
      have hmeasured := hc.measured _ _ _ _ _ _ hi
      have howed : owed ({ s with allocated := s.allocated - freed }.put i
          (.spilling size own deficit (spilled + freed) left)) + own = owed s + own :=
        sum_map_set hi Caller.owed _
      refine hc.of_moves hbase hi ⟨rfl, rfl, .inl ?_, Nat.sub_le _ _, .inr (.inl hholder),
        fun _ => hholder, hown⟩ ?_
      · simp only [deficitNow, availableNow, State.put, Caller.owed, Caller.own]
        omega
      · intro size' own' deficit' spilled' functions' heq
        cases heq
        simp only [deficitNow, availableNow, State.put] at hshare hmeasured howed ⊢
        constructor <;> omega

/-- The caller of a spill function that throws still owes its share. -/
theorem Covered.spill_throws {freed : Nat} (hbase : 0 ≤ base) (hc : Covered cfg base reserved₀ s)
    (h : Overbooking.step cfg functions (.spillThrows i freed) s = .ok s') :
    Covered cfg base reserved₀ s' := by
  simp only [Overbooking.step] at h
  split at h
  case h_2 => cases h
  case h_1 size own deficit spilled left hi =>
    split at h
    case isFalse => cases h
    case isTrue hcond =>
      cases Fallible.pure_eq_ok.mp h
      have hholder := hc.locked i _ hi trivial
      have hown : own ≤ size := hc.consistent _ (List.mem_of_getElem? hi)
      refine hc.of_moves hbase hi ⟨rfl, rfl, .inl ?_, Nat.sub_le _ _, .inr (.inl hholder),
        fun hlocked => hlocked.elim, hown⟩ ?_
      · simp only [deficitNow, availableNow, State.put, Caller.owed, Caller.own]
        omega
      · intro _ _ _ _ _ heq
        cases heq

/-- A caller that has spilled its share, or all of the deficit, owes nothing any more. -/
theorem Covered.unlock (hbase : 0 ≤ base) (hc : Covered cfg base reserved₀ s)
    (h : Overbooking.step cfg functions (.unlock i) s = .ok s') :
    Covered cfg base reserved₀ s' := by
  simp only [Overbooking.step] at h
  split at h
  case h_2 => cases h
  case h_1 size own deficit spilled left hi =>
    split at h
    case isFalse => cases h
    case isTrue hcond =>
      cases Fallible.pure_eq_ok.mp h
      have hholder := hc.locked i _ hi trivial
      have hown : own ≤ size := hc.consistent _ (List.mem_of_getElem? hi)
      have hshare := hc.share _ _ _ _ _ _ hi
      have hmeasured := hc.measured _ _ _ _ _ _ hi
      have hcovered := hc.covered
      have howed : owed ({ s with holder := none }.put i (.judging size own deficit spilled))
          + own = owed s + Caller.owed (.judging size own deficit spilled) :=
        sum_map_set hi Caller.owed _
      refine hc.of_moves hbase hi ⟨rfl, rfl, .inr (.inr ⟨hholder, ?_⟩), le_rfl,
        .inr (.inl hholder), fun hlocked => hlocked.elim, hown⟩ ?_
      · -- having spilled its share, or all of the deficit, the caller owes nothing
        simp only [Caller.owed] at howed
        simp only [deficitNow, availableNow, State.put] at hshare hmeasured hcovered howed ⊢
        split at howed <;> omega
      · intro _ _ _ _ _ heq
        cases heq

/-- A caller returns if it has spilled its share, and unwinds else. -/
theorem Covered.judge (hbase : 0 ≤ base) (hc : Covered cfg base reserved₀ s)
    (h : Overbooking.step cfg functions (.judge i) s = .ok s') : Covered cfg base reserved₀ s' := by
  simp only [Overbooking.step] at h
  split at h
  case h_2 => cases h
  case h_1 size own deficit spilled hi =>
    have hown : own ≤ size := hc.consistent _ (List.mem_of_getElem? hi)
    split at h
    · next hpaid =>
        cases Fallible.pure_eq_ok.mp h
        refine hc.of_moves hbase hi ⟨rfl, rfl, .inl ?_, le_rfl, .inl ⟨rfl, rfl⟩,
          fun hlocked => hlocked.elim, trivial⟩ ?_
        · simp [deficitNow, availableNow, State.put, Caller.owed, Caller.own, hpaid]
        · intro _ _ _ _ _ heq
          cases heq
    · next hunpaid =>
        cases Fallible.pure_eq_ok.mp h
        refine hc.of_moves hbase hi ⟨rfl, rfl, .inl ?_, le_rfl, .inl ⟨rfl, rfl⟩,
          fun hlocked => hlocked.elim, hown⟩ ?_
        · simp [deficitNow, availableNow, State.put, Caller.owed, Caller.own, hunpaid]
        · intro _ _ _ _ _ heq
          cases heq

/-- Unwinding gives the reservation back, and with it all that is owed for it. -/
theorem Covered.unwind (hbase : 0 ≤ base) (hc : Covered cfg base reserved₀ s)
    (h : Overbooking.step cfg functions (.unwind i) s = .ok s') :
    Covered cfg base reserved₀ s' := by
  simp only [Overbooking.step] at h
  split at h
  case h_2 => cases h
  case h_1 size own hi =>
    obtain ⟨x, hx, hpure⟩ := Fallible.bind_eq_ok.mp h
    obtain ⟨-, hle, rfl⟩ := release_bytes_eq_ok hx
    cases Fallible.pure_eq_ok.mp hpure
    have hown : own ≤ size := hc.consistent _ (List.mem_of_getElem? hi)
    refine hc.of_moves hbase hi ⟨rfl, ?_, .inl ?_, le_rfl, .inl ⟨rfl, rfl⟩,
      fun hlocked => hlocked.elim, trivial⟩ ?_
    · simp only [State.put, Caller.held]
      omega
    · simp only [deficitNow, availableNow, State.put, Caller.owed, Caller.own]
      omega
    · intro _ _ _ _ _ heq
      cases heq

/-- Every step keeps the cover. -/
theorem Covered.step {l : Label} (hbase : 0 ≤ base) (hc : Covered cfg base reserved₀ s)
    (h : Overbooking.step cfg functions l s = .ok s') : Covered cfg base reserved₀ s' := by
  cases l with
  | sample i => exact hc.sample hbase h
  | reserve i => exact hc.reserve hbase h
  | lock i => exact hc.lock hbase h
  | measure i => exact hc.measure hbase h
  | spill i freed => exact hc.spill hbase h
  | spillThrows i freed => exact hc.spill_throws hbase h
  | unlock i => exact hc.unlock hbase h
  | judge i => exact hc.judge hbase h
  | unwind i => exact hc.unwind hbase h

/-- Before anyone has reserved, nothing is owed. -/
theorem Covered.initial {allocated₀ : Nat}
    (h : (system cfg functions allocated₀ reserved₀).init s) :
    Covered cfg (max 0 (-availableNow cfg allocated₀ reserved₀)) reserved₀ s := by
  obtain ⟨hallocated, hreserved, -, hstart⟩ := h
  have hget : ∀ (i : Nat) (c : Caller), s.callers[i]? = some c → ∃ size, c = .start size :=
    fun i c hi => hstart c (List.mem_of_getElem? hi)
  have hzero : ∀ f : Caller → Nat, (∀ size, f (.start size) = 0) → (s.callers.map f).sum = 0 := by
    intro f hf
    refine List.sum_eq_zero fun x hx => ?_
    obtain ⟨c, hc, rfl⟩ := List.mem_map.mp hx
    obtain ⟨size, rfl⟩ := hstart c hc
    exact hf size
  refine ⟨?_, ?_, ?_, ?_, ?_, ?_⟩
  · intro c hc
    obtain ⟨size, rfl⟩ := hstart c hc
    trivial
  · intro i c hi hlocked
    obtain ⟨size, rfl⟩ := hget i c hi
    exact hlocked.elim
  · rw [hzero Caller.held fun _ => rfl, hreserved]
    rfl
  · rw [deficitNow, hallocated, hreserved]
    omega
  · intro i size own deficit spilled functions hi
    obtain ⟨_, heq⟩ := hget i _ hi
    cases heq
  · intro i size own deficit spilled functions hi
    obtain ⟨_, heq⟩ := hget i _ hi
    cases heq

theorem reachable_covered {allocated₀ : Nat}
    (hs : (system cfg functions allocated₀ reserved₀).Reachable s) :
    Covered cfg (max 0 (-availableNow cfg allocated₀ reserved₀)) reserved₀ s := by
  refine hs.invariant ?_ ?_
  · intro s h
    exact .initial h
  · intro s l s' hc hstep
    exact hc.step (le_max_left 0 _) hstep

theorem Caller.owed_le_own (c : Caller) : c.owed ≤ c.own := by
  cases c with
  | judging size own deficit spilled =>
      simp only [Caller.owed, Caller.own]
      split <;> omega
  | start => exact le_rfl
  | sampled => exact le_rfl
  | waiting => exact le_rfl
  | measuring => exact le_rfl
  | spilling => exact le_rfl
  | unwinding => exact le_rfl
  | returned => exact le_rfl
  | threw => exact le_rfl

/-- The overbooking is at most the initial one and the shares of the callers that have reserved
and not yet returned; when all have returned or thrown it is at most the initial one. The
reservations are those of the callers that have not thrown. -/
theorem paid_back {allocated₀ : Nat}
    (hs : (system cfg functions allocated₀ reserved₀).Reachable s) :
    max 0 (-availableNow cfg s.allocated s.reserved)
        ≤ max 0 (-availableNow cfg allocated₀ reserved₀) + (s.callers.map Caller.own).sum ∧
      ((∀ c ∈ s.callers, c.Finished) →
        max 0 (-availableNow cfg s.allocated s.reserved)
          ≤ max 0 (-availableNow cfg allocated₀ reserved₀)) ∧
      s.reserved = reserved₀ + (s.callers.map Caller.held).sum ∧ Caller.held .threw = 0 := by
  have hc := reachable_covered hs
  have hcovered := hc.covered
  have hle : owed s ≤ (s.callers.map Caller.own).sum :=
    List.sum_le_sum fun c _ => c.owed_le_own
  rw [deficitNow] at hcovered
  refine ⟨by omega, fun hfinished => ?_, hc.reserved, rfl⟩
  have hzero : (s.callers.map Caller.own).sum = 0 := by
    refine List.sum_eq_zero fun x hx => ?_
    obtain ⟨c, hmem, rfl⟩ := List.mem_map.mp hx
    rcases hfinished c hmem with rfl | ⟨size, rfl⟩
    · rfl
    · rfl
  omega

end Step

/-- A resource with 100 bytes of device memory. -/
def fullConfig : Config := ⟨fun _ => 100, false, false⟩

/-- All of the memory is allocated; two callers reserve, the first one spills for both. -/
def twoCallers : List Label :=
  [.sample 0, .sample 1, .reserve 0, .reserve 1, .lock 0, .measure 0, .spill 0 70, .unlock 0,
    .judge 0, .lock 1, .measure 1, .judge 1]

theorem paid_back_two_callers :
    ∃ s, (system fullConfig 1 100 0).Reachable s ∧ s.callers = [.returned 40, .returned 30] ∧
      s.allocated = 30 ∧
      max 0 (-availableNow fullConfig s.allocated s.reserved)
        ≤ max 0 (-availableNow fullConfig 100 0) := by
  have hinit : (system fullConfig 1 100 0).Reachable ⟨100, 0, none, [.start 40, .start 30]⟩ := by
    refine .init ⟨rfl, rfl, rfl, fun c hc => ?_⟩
    rcases List.mem_pair.mp hc with rfl | rfl
    · exact ⟨40, rfl⟩
    · exact ⟨30, rfl⟩
  have hrun : ∃ s, Fallible.run (step fullConfig 1) twoCallers
      ⟨100, 0, none, [.start 40, .start 30]⟩ = .ok s ∧
      s.callers = [.returned 40, .returned 30] ∧ s.allocated = 30 := ⟨_, rfl, rfl, rfl⟩
  obtain ⟨s, hrun, hcallers, hallocated⟩ := hrun
  have hreach := hinit.run (fun l _ s₁ s₂ h => ⟨trivial, h⟩) hrun
  refine ⟨s, hreach, hcallers, hallocated, (paid_back hreach).2.1 fun c hc => ?_⟩
  rw [hcallers] at hc
  rcases List.mem_pair.mp hc with rfl | rfl
  · exact .inr ⟨40, rfl⟩
  · exact .inr ⟨30, rfl⟩

end Rapidsmpf.Memory.Overbooking
