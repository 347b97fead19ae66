import Mathlib
import Rapidsmpf.Lib.OrderedSearch
import Rapidsmpf.Streaming.ReserveOrWait

/-!
# The choice of a request

`periodic_memory_check` finds the requests that fit by `std::ranges::upper_bound` on the sizes of
the ordered set `reservation_requests_`, and among them the one to admit, or the one to force out,
by `std::ranges::min_element` on the deltas. Here the two searches are the loops of the standard
library, the set is what insertions in any order make it, and the choices are compared with what
they are for (`picks_right`). The running task makes the same choices (`reachable_choices`).
-/

namespace Rapidsmpf.Streaming.ReserveOrWait

open Protocol OrderedSearch

theorem Request.before_irrefl (a : Request) : ¬ a.Before a := by
  rintro (h | ⟨-, h⟩)
  · exact Nat.lt_irrefl _ h
  · exact Nat.lt_irrefl _ h

theorem Request.before_trans (a b c : Request) (hab : a.Before b) (hbc : b.Before c) :
    a.Before c := by
  unfold Request.Before at *
  omega

/-- Requests with different sequence numbers are never equivalent. -/
theorem Request.before_or_before {a b : Request} (h : a.sequenceNumber ≠ b.sequenceNumber) :
    a.Before b ∨ b.Before a := by
  unfold Request.Before
  omega

/-- `reservation_requests_` after these insertions. -/
def pendingSet (inserted : List Request) : List Request :=
  insertAll Request.Before inserted

/-- `memory_available`: negative values become zero. -/
def memoryAvailable (available : Int) : Nat :=
  (max available 0).toNat

/-- `upper_bound` on the sizes. -/
def sizeUpperBound (maxSize : Nat) (requests : List Request) : Nat :=
  upperBound (fun r => decide (maxSize < r.size)) requests

/-- The request that is selected for admission: `min_element` of the range up to `upper_bound`. -/
def selectEligible (available : Int) (requests : List Request) : Option Request :=
  OrderedSearch.minElement Request.netMemoryDelta
    (requests.take (sizeUpperBound (memoryAvailable available) requests))

/-- The request that is selected at the timeout. -/
def selectSmallest (requests : List Request) : Option Request :=
  match requests with
  | [] => none
  | first :: _ =>
      OrderedSearch.minElement Request.netMemoryDelta
        (requests.take (sizeUpperBound first.size requests))

section Selection

variable {requests : List Request} {r : Request} {maxSize : Nat} {available : Int}

/-- The set is sorted by size, so what follows a request that is too large is too large. -/
theorem sizes_ascend (hsorted : requests.Pairwise Request.Before) (maxSize : Nat) :
    requests.Pairwise fun a b =>
      decide (maxSize < a.size) = true → decide (maxSize < b.size) = true := by
  refine hsorted.imp fun {a b} hab ha => ?_
  have hle : a.size ≤ b.size := by
    rcases hab with h | ⟨h, -⟩
    · exact h.le
    · exact h.le
  exact decide_eq_true ((of_decide_eq_true ha).trans_le hle)

/-- `eligible_requests` by the loop of `upper_bound`. -/
theorem take_upperBound_eq (hsorted : requests.Pairwise Request.Before) (maxSize : Nat) :
    requests.take (sizeUpperBound maxSize requests) = eligibleRequests maxSize requests := by
  rw [sizeUpperBound, take_upperBound (sizes_ascend hsorted maxSize), eligibleRequests]
  congr 1
  funext a
  rw [← decide_not, decide_eq_decide]
  exact not_lt

/-- The range holds the requests that fit, and no other. -/
theorem mem_eligible (hsorted : requests.Pairwise Request.Before) :
    r ∈ eligibleRequests maxSize requests ↔ r ∈ requests ∧ r.size ≤ maxSize := by
  rw [← take_upperBound_eq hsorted, sizeUpperBound, take_upperBound (sizes_ascend hsorted maxSize),
    takeWhile_eq_filter (sizes_ascend hsorted maxSize), List.mem_filter, ← decide_not,
    decide_eq_true_eq, not_lt]

theorem eligible_sorted (hsorted : requests.Pairwise Request.Before) (maxSize : Nat) :
    (eligibleRequests maxSize requests).Pairwise Request.Before :=
  hsorted.sublist (List.takeWhile_prefix _).sublist

/-- The first two elements may be compared first. -/
theorem minElement_cons_cons (best first : Request) (rest : List Request) :
    minElement (best :: first :: rest) =
      minElement (better Request.netMemoryDelta best first :: rest) := by
  simp only [better]
  cases hrest : minElement rest with
  | none =>
      simp only [minElement, hrest]
      split <;> rfl
  | some least =>
      simp only [minElement, hrest]
      split <;> grind

/-- The recursion of the task's model and the scan agree. -/
theorem min_element_eq (requests : List Request) :
    OrderedSearch.minElement Request.netMemoryDelta requests = minElement requests := by
  cases requests with
  | nil => rfl
  | cons best requests =>
      change some (requests.foldl (better Request.netMemoryDelta) best) = _
      induction requests generalizing best with
      | nil => rfl
      | cons first rest ih =>
          rw [List.foldl_cons, ih, minElement_cons_cons]

/-- The choices of the running task are those of the two searches. -/
theorem selectEligible_eq (hsorted : requests.Pairwise Request.Before) (available : Int) :
    selectEligible available requests = admissible (memoryAvailable available) requests := by
  rw [selectEligible, take_upperBound_eq hsorted, min_element_eq, admissible]

theorem selectSmallest_eq (hsorted : requests.Pairwise Request.Before) :
    selectSmallest requests = smallest requests := by
  cases requests with
  | nil => rfl
  | cons first rest =>
      change OrderedSearch.minElement _ (List.take _ (first :: rest)) = minElement _
      rw [take_upperBound_eq hsorted, min_element_eq]

end Selection

section Purpose

/-- What admission prefers: the lesser delta, then the smaller request, then the older. -/
def Request.AdmittedBefore (a b : Request) : Prop :=
  a.netMemoryDelta < b.netMemoryDelta ∨ a.netMemoryDelta = b.netMemoryDelta ∧
    (a.size < b.size ∨ a.size = b.size ∧ a.sequenceNumber < b.sequenceNumber)

/-- What forced progress prefers: the smaller request, then the lesser delta, then the older. -/
def Request.ForcedBefore (a b : Request) : Prop :=
  a.size < b.size ∨ a.size = b.size ∧
    (a.netMemoryDelta < b.netMemoryDelta ∨
      a.netMemoryDelta = b.netMemoryDelta ∧ a.sequenceNumber < b.sequenceNumber)

/-- The request that ordinary admission is to choose. -/
structure AdmissionChoice (pending : List Request) (available : Int) (r : Request) : Prop where
  mem : r ∈ pending
  fits : (r.size : Int) ≤ max available 0
  first : ∀ r' ∈ pending, (r'.size : Int) ≤ max available 0 → r' ≠ r → r.AdmittedBefore r'

/-- The request that forced progress is to choose. -/
structure ForcedChoice (pending : List Request) (r : Request) : Prop where
  mem : r ∈ pending
  first : ∀ r' ∈ pending, r' ≠ r → r.ForcedBefore r'

variable {inserted requests : List Request} {r : Request} {available : Int}

theorem le_memoryAvailable {size : Nat} :
    size ≤ memoryAvailable available ↔ (size : Int) ≤ max available 0 := by
  unfold memoryAvailable
  omega

/-- Two requests of one set are never equivalent. -/
theorem distinct_compare (hdistinct : (inserted.map Request.sequenceNumber).Nodup) :
    inserted.Pairwise fun a b => a.Before b ∨ b.Before a :=
  (List.pairwise_map.mp hdistinct).imp Request.before_or_before

theorem pendingSet_sorted (hdistinct : (inserted.map Request.sequenceNumber).Nodup) :
    (pendingSet inserted).Pairwise Request.Before :=
  insertAll_sorted Request.before_trans (distinct_compare hdistinct)

theorem selectEligible_iff (hsorted : requests.Pairwise Request.Before) :
    selectEligible available requests = some r ↔ AdmissionChoice requests available r := by
  rw [selectEligible, take_upperBound_eq hsorted,
    min_element_eq_some_iff Request.before_irrefl Request.before_trans (eligible_sorted hsorted _)]
  constructor
  · rintro ⟨hr, hfirst⟩
    obtain ⟨hmem, hfits⟩ := (mem_eligible hsorted).mp hr
    refine ⟨hmem, le_memoryAvailable.mp hfits, fun r' hr' hfits' hne => ?_⟩
    exact hfirst r' ((mem_eligible hsorted).mpr ⟨hr', le_memoryAvailable.mpr hfits'⟩) hne
  · rintro ⟨hmem, hfits, hfirst⟩
    refine ⟨(mem_eligible hsorted).mpr ⟨hmem, le_memoryAvailable.mpr hfits⟩, fun r' hr' hne => ?_⟩
    obtain ⟨hmem', hfits'⟩ := (mem_eligible hsorted).mp hr'
    exact hfirst r' hmem' (le_memoryAvailable.mp hfits') hne

theorem selectEligible_eq_none_iff (hsorted : requests.Pairwise Request.Before) :
    selectEligible available requests = none ↔
      ∀ r ∈ requests, ¬ (r.size : Int) ≤ max available 0 := by
  rw [selectEligible, take_upperBound_eq hsorted, min_element_eq_none_iff,
    List.eq_nil_iff_forall_not_mem]
  constructor
  · intro h r hr hfits
    exact h r ((mem_eligible hsorted).mpr ⟨hr, le_memoryAvailable.mpr hfits⟩)
  · intro h r hr
    obtain ⟨hmem, hfits⟩ := (mem_eligible hsorted).mp hr
    exact h r hmem (le_memoryAvailable.mp hfits)

/-- The first of the sorted set has the smallest size. -/
theorem first_size_le {first : Request} {rest : List Request}
    (hsorted : (first :: rest).Pairwise Request.Before) (hr : r ∈ first :: rest) :
    first.size ≤ r.size := by
  rcases List.mem_cons.mp hr with rfl | hr
  · exact Nat.le_refl _
  · rcases (List.pairwise_cons.mp hsorted).1 r hr with h | ⟨h, -⟩
    · exact h.le
    · exact h.le

theorem selectSmallest_iff (hsorted : requests.Pairwise Request.Before) :
    selectSmallest requests = some r ↔ ForcedChoice requests r := by
  cases requests with
  | nil => exact ⟨nofun, fun h => nomatch h.mem⟩
  | cons first rest =>
      change OrderedSearch.minElement _ (List.take _ (first :: rest)) = some r ↔ _
      rw [take_upperBound_eq hsorted, min_element_eq_some_iff Request.before_irrefl
        Request.before_trans (eligible_sorted hsorted _)]
      constructor
      · rintro ⟨hr, hfirst⟩
        obtain ⟨hmem, hsize⟩ := (mem_eligible hsorted).mp hr
        refine ⟨hmem, fun r' hr' hne => ?_⟩
        have hle := first_size_le hsorted hr'
        by_cases hsmall : r'.size ≤ first.size
        · -- both are of the smallest size
          have hpreferred := hfirst r' ((mem_eligible hsorted).mpr ⟨hr', hsmall⟩) hne
          have hle' := first_size_le hsorted hmem
          unfold Request.Before at hpreferred
          unfold Request.ForcedBefore
          omega
        · exact .inl (by omega)
      · rintro ⟨hmem, hfirst⟩
        have hsize : r.size ≤ first.size := by
          by_cases heq : first = r
          · exact heq ▸ Nat.le_refl _
          · have := hfirst first List.mem_cons_self heq
            unfold Request.ForcedBefore at this
            omega
        refine ⟨(mem_eligible hsorted).mpr ⟨hmem, hsize⟩, fun r' hr' hne => ?_⟩
        obtain ⟨hmem', hsize'⟩ := (mem_eligible hsorted).mp hr'
        have hpreferred := hfirst r' hmem' hne
        have hle := first_size_le hsorted hmem
        have hle' := first_size_le hsorted hmem'
        unfold Request.ForcedBefore at hpreferred
        unfold Request.Before
        omega

end Purpose

/-- The two searches on the ordered set of the pending requests make exactly the choices they are
for, and no two of the requests are equivalent. -/
theorem picks_right (inserted : List Request)
    (hdistinct : (inserted.map Request.sequenceNumber).Nodup) (available : Int) :
    (∀ r, r ∈ pendingSet inserted ↔ r ∈ inserted) ∧
    (∀ r, selectEligible available (pendingSet inserted) = some r ↔
      AdmissionChoice inserted available r) ∧
    (selectEligible available (pendingSet inserted) = none ↔
      ∀ r ∈ inserted, ¬ (r.size : Int) ≤ max available 0) ∧
    (∀ r, selectSmallest (pendingSet inserted) = some r ↔ ForcedChoice inserted r) ∧
    (selectSmallest (pendingSet inserted) = none ↔ inserted = []) ∧
    ∀ a ∈ inserted, ∀ b ∈ inserted, a ≠ b → a.Before b ∨ b.Before a := by
  have hsorted := pendingSet_sorted hdistinct
  have hmem : ∀ r, r ∈ pendingSet inserted ↔ r ∈ inserted := fun r => mem_insertAll
  refine ⟨hmem, fun r => ?_, ?_, fun r => ?_, ?_, fun a ha b hb hne => ?_⟩
  · rw [selectEligible_iff hsorted]
    exact ⟨fun h => ⟨(hmem r).mp h.mem, h.fits, fun r' hr' => h.first r' ((hmem r').mpr hr')⟩,
      fun h => ⟨(hmem r).mpr h.mem, h.fits, fun r' hr' => h.first r' ((hmem r').mp hr')⟩⟩
  · rw [selectEligible_eq_none_iff hsorted]
    exact ⟨fun h r hr => h r ((hmem r).mpr hr), fun h r hr => h r ((hmem r).mp hr)⟩
  · rw [selectSmallest_iff hsorted]
    exact ⟨fun h => ⟨(hmem r).mp h.mem, fun r' hr' => h.first r' ((hmem r').mpr hr')⟩,
      fun h => ⟨(hmem r).mpr h.mem, fun r' hr' => h.first r' ((hmem r').mp hr')⟩⟩
  · rw [selectSmallest_eq hsorted]
    refine ⟨fun h => ?_, fun h => by rw [h]; rfl⟩
    rw [List.eq_nil_iff_forall_not_mem]
    intro r hr
    have hset := smallest_eq_none h
    rw [← hmem, hset] at hr
    exact nomatch hr
  · exact Request.before_or_before fun heq =>
      hne (List.inj_on_of_nodup_map hdistinct ha hb heq)

/-- The request with the least delta does not fit, and the smaller of the other two is taken. -/
theorem picks_right_three :
    selectEligible 8 (pendingSet [⟨8, -1, 2⟩, ⟨9, -7, 0⟩, ⟨4, -1, 1⟩]) = some ⟨4, -1, 1⟩ :=
  ((picks_right [⟨8, -1, 2⟩, ⟨9, -7, 0⟩, ⟨4, -1, 1⟩] (by decide) 8).2.1 ⟨4, -1, 1⟩).mpr
    { mem := by decide, fits := by decide, first := by unfold Request.AdmittedBefore; decide }

/-! ## The running task -/

/-- The pending requests of an instance are sorted, and older than the counter. -/
structure Ordered (s : State) : Prop where
  sorted : s.requests.Pairwise Request.Before
  older : ∀ r ∈ s.requests, r.sequenceNumber < s.sequenceCounter

variable {cfg : Config} {s s' : State}

theorem Ordered.frame (hs : Ordered s) (hrequests : s'.requests.Sublist s.requests)
    (hcounter : s'.sequenceCounter = s.sequenceCounter) : Ordered s' where
  sorted := hs.sorted.sublist hrequests
  older r hr := hcounter ▸ hs.older r (hrequests.subset hr)

theorem Ordered.insert (hs : Ordered s) (i size : Nat) (netMemoryDelta : Int) :
    Ordered (insert s i size netMemoryDelta) := by
  have hset : Ordered { s with
      requests := s.requests.orderedInsert Request.Before ⟨size, netMemoryDelta, s.sequenceCounter⟩
      sequenceCounter := s.sequenceCounter + 1 } := by
    refine ⟨sorted_insert Request.before_trans hs.sorted fun r hr => ?_, fun r hr => ?_⟩
    · exact Request.before_or_before (hs.older r hr).ne'
    · rcases (List.mem_orderedInsert Request.Before).mp hr with rfl | hr
      · exact Nat.lt_succ_self _
      · exact Nat.lt_succ_of_lt (hs.older r hr)
  unfold ReserveOrWait.insert
  dsimp only
  split
  · exact hset.frame (.refl _) rfl
  · exact hset.frame (.refl _) rfl

theorem Ordered.effect {i : Nat} {t : Task} (hs : Ordered s) (h : TaskEffect s i t s') :
    Ordered s' := by
  cases h with
  | move => exact hs.frame (.refl _) rfl
  | exit => exact hs.frame (.refl _) rfl
  | extract => exact hs.frame List.erase_sublist rfl
  | push => exact hs.frame (.refl _) rfl

theorem step_ordered {l : Label} (hsound : s.Sound) (hs : Ordered s)
    (h : step cfg l s = some s') : Ordered s' := by
  rcases step_cases h with ⟨i, l', t, ht, htask⟩ | ⟨i, size, netMemoryDelta, rfl⟩ |
    ⟨-, hcounter, hrequests⟩
  · have hfits := hsound.genuine.tasks t (List.mem_of_getElem? ht)
    exact hs.effect (taskStep_effect hfits htask)
  · exact hs.insert i size netMemoryDelta
  · exact hs.frame hrequests hcounter

theorem reachable_ordered (hs : (system cfg).Reachable s) : Ordered s := by
  refine (hs.invariant (I := fun s => s.Sound ∧ Ordered s) ?_ fun s l s' h hstep => ?_).2
  · rintro s rfl
    exact ⟨new_sound, .nil, nofun⟩
  · exact ⟨step_sound h.1 hstep, step_ordered h.1 h.2 hstep⟩

/-- What a running task admits or forces out is the choice among what is pending. -/
theorem reachable_choices (hs : (system cfg).Reachable s) (available : Int) (r : Request) :
    (admissible (memoryAvailable available) s.requests = some r ↔
      AdmissionChoice s.requests available r) ∧
    (smallest s.requests = some r ↔ ForcedChoice s.requests r) := by
  have hsorted := (reachable_ordered hs).sorted
  constructor
  · rw [← selectEligible_eq hsorted]
    exact selectEligible_iff hsorted
  · rw [← selectSmallest_eq hsorted]
    exact selectSmallest_iff hsorted

end Rapidsmpf.Streaming.ReserveOrWait
