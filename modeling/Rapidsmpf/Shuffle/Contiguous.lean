import Mathlib
import Rapidsmpf.Lib.EvenSplit
import Rapidsmpf.Lib.Fallible
import Rapidsmpf.Shuffle.Chunk

/-!
# Contiguous partitions

`Shuffler::contiguous` deals out the partitions to the ranks in order, and `local_partitions`
collects those of one rank. The product of the partition id and the number of ranks is one of
`std::uint32_t`: `contiguous_iff` says that the assignment is an even split into intervals exactly
when this product does not wrap around.
-/

namespace Rapidsmpf.Shuffle

open Fallible EvenSplit

/-! ## The code -/

/-- The `std::overflow_error` of `safe_cast`. -/
inductive CastError where
  | outOfRange (value : Nat)
deriving DecidableEq

/-- `safe_cast` to an integer type with values below a limit. -/
def safeCast (limit value : Nat) : Except CastError Nat :=
  if value < limit then pure value else throw (.outOfRange value)

/-- `Shuffler::contiguous`. -/
def contiguous (nranks : Nat) (pid totalNumPartitions : PartID) : Except CastError Nat := do
  let n ← safeCast (2 ^ 32) nranks
  safeCast (2 ^ 31) (pid * n % 2 ^ 32 / totalNumPartitions)

/-- `Shuffler::local_partitions`, with an owner function that may throw. -/
def localPartitionsBy (partitionOwner : PartID → Except CastError Nat)
    (totalNumPartitions : PartID) (rank : Nat) : Except CastError (List PartID) :=
  (List.range totalNumPartitions).foldlM (fun ret i => do
    let owner ← partitionOwner i
    pure (if owner = rank then ret ++ [i] else ret)) []

theorem safe_cast_of_lt {limit value : Nat} (h : value < limit) :
    safeCast limit value = .ok value := if_pos h

theorem contiguous_eq {nranks pid total : Nat} (hnranks : nranks < 2 ^ 31) :
    contiguous nranks pid total = safeCast (2 ^ 31) (pid * nranks % 2 ^ 32 / total) := by
  rw [contiguous, safe_cast_of_lt (by omega)]
  rfl

/-- The partitions of a rank when no call throws. -/
theorem local_partitions_eq {owner : PartID → Except CastError Nat} {f : Nat → Nat}
    {total rank : Nat} (h : ∀ i < total, owner i = .ok (f i)) :
    localPartitionsBy owner total rank = .ok ((List.range total).filter (f · = rank)) := by
  suffices hloop : ∀ (l ret : List Nat), (∀ i ∈ l, i < total) →
      l.foldlM (fun ret i => do
        let owner ← owner i
        pure (if owner = rank then ret ++ [i] else ret)) ret =
          Except.ok (ε := CastError) (ret ++ l.filter (f · = rank)) by
    exact hloop _ [] fun i hi => List.mem_range.mp hi
  intro l
  induction l with
  | nil => intro ret _; rw [List.filter_nil, List.append_nil]; rfl
  | cons i l ih =>
      intro ret hl
      rw [List.foldlM_cons, h i (hl i List.mem_cons_self)]
      refine (ih _ fun j hj => hl j (List.mem_cons_of_mem i hj)).trans ?_
      by_cases hi : f i = rank
      · rw [if_pos hi, List.filter_cons_of_pos (by simpa using hi), List.append_assoc]
        rfl
      · rw [if_neg hi, List.filter_cons_of_neg (by simpa using hi)]

/-! ## The assignment -/

/-- The partitions are dealt out to the ranks in order, one interval for each rank between its two
boundaries, and evenly. -/
structure EvenlyAssigned (nranks total : Nat) (owner : Nat → Nat) (start : Nat → Nat) : Prop where
  owned : ∀ pid < total, contiguous nranks pid total = .ok (owner pid)
  inRange : ∀ pid < total, owner pid < nranks
  ordered : ∀ p q, p ≤ q → q < total → owner p ≤ owner q
  first : start 0 = 0
  last : start nranks = total
  ascending : ∀ r < nranks, start r ≤ start (r + 1)
  intervals : ∀ r < nranks, localPartitionsBy (contiguous nranks · total) total r =
    .ok (List.range' (start r) (start (r + 1) - start r))
  balanced : ∀ r < nranks, ∀ r' < nranks,
    start (r + 1) - start r ≤ start (r' + 1) - start r' + 1

section

variable {nranks total : Nat}

/-- Without a wrap-around, the assignment is the even split. -/
theorem evenly_assigned (hnranks : 0 < nranks) (hrank : nranks < 2 ^ 31) (htotal : 0 < total)
    (hfits : (total - 1) * nranks < 2 ^ 32) :
    EvenlyAssigned nranks total (fun pid => pid * nranks / total) (cut nranks total) := by
  have hlt : ∀ pid < total, pid * nranks / total < nranks := by
    intro pid hpid
    rw [Nat.div_lt_iff_lt_mul htotal, Nat.mul_comm]
    exact Nat.mul_lt_mul_of_pos_left hpid hnranks
  have howned : ∀ pid < total, contiguous nranks pid total = .ok (pid * nranks / total) := by
    intro pid hpid
    have hproduct : pid * nranks ≤ (total - 1) * nranks :=
      Nat.mul_le_mul_right nranks (by omega)
    rw [contiguous_eq hrank, Nat.mod_eq_of_lt (by omega)]
    exact safe_cast_of_lt ((hlt pid hpid).trans hrank)
  refine ⟨howned, hlt, ?_, cut_zero hnranks, cut_parts hnranks,
    fun r _ => cut_mono hnranks (Nat.le_succ r), ?_, ?_⟩
  · exact fun p q hpq _ => Nat.div_le_div_right (Nat.mul_le_mul_right nranks hpq)
  · intro r hr
    have hstop : cut nranks total (r + 1) ≤ total :=
      (cut_mono hnranks hr).trans_eq (cut_parts hnranks)
    rw [local_partitions_eq howned, ← filter_range hstop (cut_mono hnranks (Nat.le_succ r))]
    congr 1
    refine List.filter_congr fun pid _ => ?_
    rw [decide_eq_decide]
    exact div_eq_iff hnranks htotal
  · intro r _ r' _
    calc cut nranks total (r + 1) - cut nranks total r
        ≤ total / nranks + 1 := (cut_succ hnranks r).2
      _ ≤ cut nranks total (r' + 1) - cut nranks total r' + 1 :=
        Nat.succ_le_succ (cut_succ hnranks r').1

variable {owner start : Nat → Nat}

/-- The partitions between the boundaries of a rank are its own. -/
theorem EvenlyAssigned.owner_eq_iff (h : EvenlyAssigned nranks total owner start) {r pid : Nat}
    (hr : r < nranks) (hpid : pid < total) :
    owner pid = r ↔ start r ≤ pid ∧ pid < start (r + 1) := by
  have hlist := Except.ok.inj ((local_partitions_eq h.owned).symm.trans (h.intervals r hr))
  have hmem : pid ∈ (List.range total).filter (owner · = r) ↔
      pid ∈ List.range' (start r) (start (r + 1) - start r) := by rw [hlist]
  rw [List.mem_filter, List.mem_range, decide_eq_true_eq, List.mem_range'_1] at hmem
  have hascending := h.ascending r hr
  constructor
  · intro howner
    have hbetween := hmem.mp ⟨hpid, howner⟩
    omega
  · intro hbetween
    exact (hmem.mpr (by omega)).2

/-- When one rank has more than `k` partitions, all have `k` of them. -/
theorem EvenlyAssigned.share_le (h : EvenlyAssigned nranks total owner start) {r k : Nat}
    (hr : r < nranks) (hk : k < start (r + 1) - start r) : nranks * k ≤ total := by
  have hbelow : ∀ s ≤ nranks, s * k ≤ start s := by
    intro s
    induction s with
    | zero => intro _; rw [Nat.zero_mul]; exact Nat.zero_le _
    | succ s ih =>
        intro hs
        have hshare := h.balanced r hr s hs
        have hprevious := ih (by omega)
        have hascending := h.ascending s hs
        rw [Nat.succ_mul]
        omega
  rw [← h.last]
  exact hbelow nranks le_rfl

/-- Where the product first wraps around, the owner is not a later one. -/
theorem exists_wrap (hrank : nranks < 2 ^ 31) (hwrap : 2 ^ 32 ≤ (total - 1) * nranks) :
    ∃ pid < total, 0 < pid ∧ 2 ^ 32 ≤ pid * nranks ∧
      pid * nranks % 2 ^ 32 < nranks ∧ nranks ≤ (pid - 1) * nranks % 2 ^ 32 := by
  have hexists : ∃ pid, 2 ^ 32 ≤ pid * nranks := ⟨_, hwrap⟩
  have hpid := Nat.find_spec hexists
  have hbefore : ∀ p < Nat.find hexists, p * nranks < 2 ^ 32 :=
    fun p hp => not_le.mp (Nat.find_min hexists hp)
  have hle : Nat.find hexists ≤ total - 1 := Nat.find_min' hexists hwrap
  generalize Nat.find hexists = pid at hpid hbefore hle
  have hpos : 0 < pid := by
    by_contra hzero
    obtain rfl : pid = 0 := by omega
    simp at hpid
  have hlast := hbefore (pid - 1) (by omega)
  have hstep : pid * nranks = (pid - 1) * nranks + nranks := by
    rw [← Nat.succ_mul, Nat.succ_eq_add_one, Nat.sub_add_cancel hpos]
  refine ⟨pid, by omega, hpos, hpid, ?_, ?_⟩
  · rw [Nat.mod_eq_sub_mod hpid, Nat.mod_eq_of_lt (by omega)]
    omega
  · rw [Nat.mod_eq_of_lt hlast]
    omega

/-- An even assignment has no wrap-around. -/
theorem EvenlyAssigned.fits (h : EvenlyAssigned nranks total owner start)
    (hrank : nranks < 2 ^ 31) (htotal : total < 2 ^ 32) : (total - 1) * nranks < 2 ^ 32 := by
  by_contra hwrap
  rw [not_lt] at hwrap
  obtain ⟨pid, hpid, hpos, hproduct, hwrapped, hlast⟩ := exists_wrap hrank hwrap
  have howner : ∀ p < total, owner p = p * nranks % 2 ^ 32 / total := by
    intro p hp
    have howned := h.owned p hp
    rw [contiguous_eq hrank, safeCast] at howned
    split at howned
    · exact (Except.ok.inj howned).symm
    · cases howned
  have hsame : owner (pid - 1) = owner pid := by
    refine le_antisymm (h.ordered _ _ (Nat.sub_le _ _) hpid) ?_
    rw [howner pid hpid, howner (pid - 1) (by omega)]
    exact Nat.div_le_div_right (by omega)
  have hown := (h.owner_eq_iff (h.inRange pid hpid) hpid).mp rfl
  rcases lt_or_ge total nranks with hmany | hfew
  · -- one rank has two partitions, but there are more ranks than partitions
    have hprevious := (h.owner_eq_iff (h.inRange pid hpid) (by omega)).mp hsame
    have hshare := h.share_le (k := 1) (h.inRange pid hpid) (by omega)
    omega
  · -- the first rank has all partitions up to the wrap-around
    have hzero : owner pid = 0 := by
      rw [howner pid hpid]
      exact Nat.div_eq_of_lt (by omega)
    rw [hzero, h.first, Nat.zero_add] at hown
    have hshare := h.share_le (k := pid) (h.inRange pid hpid) (by
      rw [hzero, h.first, Nat.zero_add]
      omega)
    rw [Nat.mul_comm] at hshare
    omega

/-- The partitions are dealt out in order and evenly exactly when the product of the last of them
and the number of ranks fits the type of a partition id. -/
theorem contiguous_iff (hnranks : 1 ≤ nranks) (hrank : nranks < 2 ^ 31) (htotal : 1 ≤ total)
    (hpartitions : total < 2 ^ 32) :
    (∃ owner start, EvenlyAssigned nranks total owner start) ↔
      (total - 1) * nranks < 2 ^ 32 := by
  constructor
  · rintro ⟨owner, start, h⟩
    exact h.fits hrank hpartitions
  · exact fun hfits => ⟨_, _, evenly_assigned hnranks hrank htotal hfits⟩

theorem contiguous_iff_three : (∃ owner start, EvenlyAssigned 2 3 owner start) ↔
    (3 - 1) * 2 < 2 ^ 32 :=
  contiguous_iff (by decide) (by decide) (by decide) (by decide)

end

/-- With four ranks and `2 ^ 31` partitions, the second rank's partitions end where the product
wraps around, and the next one is the first rank's. -/
theorem wrapped_out_of_order :
    contiguous 4 (2 ^ 30 - 1) (2 ^ 31) = .ok 1 ∧ contiguous 4 (2 ^ 30) (2 ^ 31) = .ok 0 ∧
      ¬ ∃ owner start, EvenlyAssigned 4 (2 ^ 31) owner start := by
  refine ⟨by decide, by decide, ?_⟩
  rintro ⟨owner, start, h⟩
  exact absurd (h.fits (by decide) (by decide)) (by decide)

end Rapidsmpf.Shuffle
