import Mathlib

/-!
# Records of allocations

`ScopedMemoryRecord` of `memory/scoped_memory_record.cpp`: what a scope counts of the allocations
and deallocations in it. A subscope is counted by a record of its own, and its parent takes it over
by `add_subscope` when it ends. `ofEvents_append` says that this loses nothing: the parent then has
the record it would have had without the subscope. The counters are taken as exact.
-/

namespace Rapidsmpf.Memory

/-- `ScopedMemoryRecord`. -/
structure ScopedMemoryRecord where
  numCurrentAllocs : Int := 0
  numTotalAllocs : Int := 0
  current : Int := 0
  total : Int := 0
  peak : Int := 0
  max : Int := 0
deriving DecidableEq

namespace ScopedMemoryRecord

def recordAllocation (r : ScopedMemoryRecord) (nbytes : Int) : ScopedMemoryRecord where
  numTotalAllocs := r.numTotalAllocs + 1
  numCurrentAllocs := r.numCurrentAllocs + 1
  current := r.current + nbytes
  total := r.total + nbytes
  peak := Max.max r.peak (r.current + nbytes)
  max := Max.max r.max nbytes

def recordDeallocation (r : ScopedMemoryRecord) (nbytes : Int) : ScopedMemoryRecord :=
  { r with
    current := r.current - nbytes
    numCurrentAllocs := r.numCurrentAllocs - 1 }

def addSubscope (r subscope : ScopedMemoryRecord) : ScopedMemoryRecord where
  peak := Max.max r.peak (r.current + subscope.peak)
  max := Max.max r.max subscope.max
  numTotalAllocs := r.numTotalAllocs + subscope.numTotalAllocs
  numCurrentAllocs := r.numCurrentAllocs + subscope.numCurrentAllocs
  current := r.current + subscope.current
  total := r.total + subscope.total

end ScopedMemoryRecord

open ScopedMemoryRecord

/-- An event that a record counts. -/
inductive MemoryEvent where
  | allocated (nbytes : Nat)
  | freed (nbytes : Nat)
deriving DecidableEq

/-- The record after one more event. -/
def ScopedMemoryRecord.count (r : ScopedMemoryRecord) : MemoryEvent → ScopedMemoryRecord
  | .allocated nbytes => r.recordAllocation nbytes
  | .freed nbytes => r.recordDeallocation nbytes

/-- The record of events in order, with no nesting. -/
def ScopedMemoryRecord.ofEvents (events : List MemoryEvent) : ScopedMemoryRecord :=
  events.foldl count {}

@[simp] theorem ofEvents_nil : ofEvents [] = {} := rfl

theorem ofEvents_concat (events : List MemoryEvent) (e : MemoryEvent) :
    ofEvents (events ++ [e]) = (ofEvents events).count e := by
  rw [ofEvents, List.foldl_append]
  rfl

/-- No peak is below what is allocated, and no maximum below zero. -/
theorem ofEvents_bounds (events : List MemoryEvent) :
    (ofEvents events).current ≤ (ofEvents events).peak ∧ 0 ≤ (ofEvents events).max := by
  induction events using List.reverseRecOn with
  | nil => exact ⟨Int.le_refl 0, Int.le_refl 0⟩
  | append_singleton events e ih =>
      rw [ofEvents_concat]
      cases e with
      | allocated nbytes => exact ⟨le_max_right _ _, ih.2.trans (le_max_left _ _)⟩
      | freed nbytes =>
          refine ⟨?_, ih.2⟩
          change (ofEvents events).current - nbytes ≤ (ofEvents events).peak
          omega

/-- Counting in the subscope and adding it is adding it and counting in the parent. -/
theorem addSubscope_count (r subscope : ScopedMemoryRecord) (e : MemoryEvent) :
    r.addSubscope (subscope.count e) = (r.addSubscope subscope).count e := by
  cases e with
  | allocated nbytes =>
      simp only [count, addSubscope, recordAllocation, ScopedMemoryRecord.mk.injEq]
      refine ⟨by omega, by omega, by omega, by omega, ?_, (max_assoc _ _ _).symm⟩
      rw [← max_add_add_left, ← max_assoc, Int.add_assoc]
  | freed nbytes =>
      simp only [count, addSubscope, recordDeallocation, ScopedMemoryRecord.mk.injEq]
      exact ⟨by omega, trivial, by omega, trivial, trivial, trivial⟩

/-- A subscope in which nothing happened. -/
theorem addSubscope_nil (events : List MemoryEvent) :
    (ofEvents events).addSubscope {} = ofEvents events := by
  obtain ⟨hpeak, hmax⟩ := ofEvents_bounds events
  generalize ofEvents events = r at hpeak hmax
  cases r
  simp only [addSubscope, Int.add_zero, max_eq_left hpeak, max_eq_left hmax]

/-- Adding the record of a subscope counts its events. -/
theorem ofEvents_append (events subscope : List MemoryEvent) :
    ofEvents (events ++ subscope) = (ofEvents events).addSubscope (ofEvents subscope) := by
  induction subscope using List.reverseRecOn with
  | nil => rw [List.append_nil, ofEvents_nil, addSubscope_nil]
  | append_singleton subscope e ih =>
      rw [← List.append_assoc, ofEvents_concat, ofEvents_concat, ih, addSubscope_count]

end Rapidsmpf.Memory
