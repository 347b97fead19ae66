import Rapidsmpf.Coll.Gathering

/-!
# What goes around the ring

For one AllGather: `p r` is what the application put in on the rank `r`, and `x r` is what the rank
`r` sent to its successor. `Flows` says that a rank sends on only what was put in there or came
from its predecessor and is not at the end of its way; then what comes to a rank is part of what
was put in on the others (`Flows.subperm_others`), and it is all of it as soon as the collective is
closed (`Closed.perm`).
-/

namespace Rapidsmpf.AllGather

open Coll Circular

variable {n r e : Nat} {p x : Nat → List Msg} {l : List Msg} {ranks : List Nat}

/-! ## What was put in -/

/-- Contributions with sequence numbers of 38 bits, fewer than `2 ^ 32` on a rank, and ranks of 26
bits. -/
structure Contributes (n : Nat) (p : Nat → List Msg) (ins : Nat → List Insertion)
    (finished : Nat → Bool) : Prop where
  nranks_le : n ≤ 2 ^ 26
  produced : ∀ r < n, p r = producedBy r (ins r) (finished r)
  length_lt : ∀ r < n, (ins r).length < 2 ^ 32
  sequence_lt : ∀ r < n, ∀ y ∈ ins r, y.sequence < 2 ^ 38

variable {ins : Nat → List Insertion} {finished : Nat → Bool}

theorem Contributes.origin_eq (h : Contributes n p ins finished) (hr : r < n) {m : Msg}
    (hm : m ∈ p r) : m.origin = r := by
  have hrank : r < 2 ^ 26 := Nat.lt_of_lt_of_le hr h.nranks_le
  rw [h.produced r hr, producedBy] at hm
  rcases List.mem_append.mp hm with hm | hm
  · obtain ⟨y, hy, rfl⟩ := List.mem_map.mp hm
    exact chunk_id_origin (h.sequence_lt r hr y hy) hrank
  · split at hm
    · obtain rfl := List.mem_singleton.mp hm
      exact chunk_id_origin (by omega) hrank
    · cases hm

/-- A rank finishes at most once. -/
theorem Contributes.finishes_eq (h : Contributes n p ins finished) (hr : r < n) :
    (p r).countP Msg.isFinish = if finished r then 1 else 0 := by
  have hdata : ((ins r).map fun y => Msg.data ⟨chunkId y.sequence r, y.metadata, y.payload⟩).countP
      Msg.isFinish = 0 := by
    rw [List.countP_eq_zero]
    intro m hm
    obtain ⟨y, -, rfl⟩ := List.mem_map.mp hm
    simp [Msg.isFinish]
  rw [h.produced r hr, producedBy, List.countP_append, hdata]
  split <;> simp [Msg.isFinish]

theorem Contributes.length_eq (h : Contributes n p ins finished) (hr : r < n) :
    (p r).length = (ins r).length + if finished r then 1 else 0 := by
  rw [h.produced r hr, producedBy, List.length_append, List.length_map]
  split <;> rfl

/-- A rank that finished announces its contributions. -/
theorem Contributes.announced_eq (h : Contributes n p ins finished) (hr : r < n) :
    ((p r).map Msg.announced).sum = if finished r then (ins r).length else 0 := by
  have hrank : r < 2 ^ 26 := Nat.lt_of_lt_of_le hr h.nranks_le
  have hlength := h.length_lt r hr
  have hdata : (((ins r).map fun y =>
      Msg.data ⟨chunkId y.sequence r, y.metadata, y.payload⟩).map Msg.announced).sum = 0 := by
    rw [List.map_map]
    exact List.sum_eq_zero fun k hk => by
      obtain ⟨y, -, rfl⟩ := List.mem_map.mp hk
      rfl
  have hsequence : (Msg.finish (chunkId ((ins r).length % 2 ^ 32) r)).announced
      = (ins r).length := by
    rw [Nat.mod_eq_of_lt hlength, Msg.announced]
    exact chunk_id_sequence (by omega) hrank
  rw [h.produced r hr, producedBy, List.map_append, List.sum_append, hdata]
  split
  · rw [List.map_singleton, List.sum_singleton, hsequence, Nat.zero_add]
  · rfl

/-- All messages put in on some ranks. -/
def union (p : Nat → List Msg) (ranks : List Nat) : List Msg := ranks.flatMap p

/-- A message was put in on the rank it comes from. -/
theorem Contributes.count_union (h : Contributes n p ins finished) (hnodup : ranks.Nodup)
    (hlt : ∀ r ∈ ranks, r < n) (m : Msg) :
    (union p ranks).count m = if m.origin ∈ ranks then (p m.origin).count m else 0 := by
  have hzero : ∀ r < n, m.origin ≠ r → (p r).count m = 0 := fun r hr hne =>
    List.count_eq_zero.mpr fun hm => hne (h.origin_eq hr hm)
  induction ranks with
  | nil => simp [union]
  | cons r ranks ih =>
      obtain ⟨hr, hnodup⟩ := List.nodup_cons.mp hnodup
      have hih := ih hnodup fun q hq => hlt q (List.mem_cons_of_mem r hq)
      simp only [union, List.flatMap_cons, List.count_append] at hih ⊢
      rw [hih]
      by_cases heq : m.origin = r
      · rw [heq, if_neg hr, if_pos (by simp)]
        rfl
      · rw [hzero r (hlt r List.mem_cons_self) heq, Nat.zero_add]
        simp [heq]

/-! ## Around the ring -/

/-- Every rank sends on what was put in there or came and has further to go. -/
structure Flows (n : Nat) (p x : Nat → List Msg) : Prop where
  origin_lt : ∀ r < n, ∀ m ∈ x r, m.origin < n
  flow : ∀ r < n, ∀ m, (x r).count m
    ≤ (p r).count m + if m.origin = succ n r then 0 else (x (pred n r)).count m

/-- The other ranks. -/
def others (n r : Nat) : List Nat := (List.range n).filter (· ≠ r)

theorem mem_others {q : Nat} : q ∈ others n r ↔ q < n ∧ q ≠ r := by
  simp [others]

theorem others_nodup (n r : Nat) : (others n r).Nodup := List.nodup_range.filter _

theorem length_others (hr : r < n) : (others n r).length + 1 = n := by
  have hsplit := List.length_eq_length_filter_add (l := List.range n) (· ≠ r)
  have hself : ((List.range n).filter fun q => !decide (q ≠ r)).length = 1 := by
    have hcount : ((List.range n).filter fun q => !decide (q ≠ r)).length
        = (List.range n).count r := by
      rw [List.count, List.countP_eq_length_filter]
      congr 2
      funext q
      by_cases hq : q = r <;> simp [hq]
    rw [hcount]
    exact List.count_eq_one_of_mem List.nodup_range (List.mem_range.mpr hr)
  rw [List.length_range, hself] at hsplit
  exact hsplit.symm

/-- What comes to a rank was put in on the others. -/
theorem Flows.subperm_others (hn : 1 < n) (h : Contributes n p ins finished) (hflows : Flows n p x)
    (hr : r < n) : List.Subperm (x (pred n r)) (union p (others n r)) := by
  refine List.subperm_ext_iff.mpr fun m hm => ?_
  have ho := hflows.origin_lt _ (pred_lt hr) m hm
  obtain ⟨hle, hback⟩ := flow_le hn ho (x := fun r => (x r).count m) (l := fun r => (p r).count m)
    (fun q hq hne => List.count_eq_zero.mpr fun hm => hne (h.origin_eq hq hm).symm)
    (fun q hq => by
      have hflow := hflows.flow q hq m
      simpa only [eq_comm] using hflow)
  have hne : m.origin ≠ r := by
    rintro rfl
    exact absurd hm (List.count_eq_zero.mp hback)
  rw [h.count_union (others_nodup n r) (fun q hq => (mem_others.mp hq).1),
    if_pos (mem_others.mpr ⟨ho, hne⟩)]
  exact hle _ (pred_lt hr)

/-! ## The end of the collective -/

theorem announced_filter (l : List Msg) :
    ((l.filter Msg.isFinish).map Msg.announced).sum = (l.map Msg.announced).sum := by
  induction l with
  | nil => rfl
  | cons m l ih =>
      cases m with
      | data item => simpa [Msg.isFinish, Msg.announced] using ih
      | finish id =>
          rw [List.filter_cons_of_pos rfl, List.map_cons, List.sum_cons, List.map_cons,
            List.sum_cons, ih]

theorem sum_le_length {f : Nat → Nat} (hle : ∀ r ∈ ranks, f r ≤ 1) :
    (ranks.map f).sum ≤ ranks.length := by
  induction ranks with
  | nil => rfl
  | cons q ranks ih =>
      have hq := hle q List.mem_cons_self
      have hrest := ih fun r hr => hle r (List.mem_cons_of_mem q hr)
      simp only [List.map_cons, List.sum_cons, List.length_cons]
      omega

/-- Numbers that are at most one and add up to how many they are. -/
theorem eq_one_of_sum_eq {f : Nat → Nat} (hle : ∀ r ∈ ranks, f r ≤ 1)
    (hsum : ranks.length ≤ (ranks.map f).sum) : ∀ r ∈ ranks, f r = 1 := by
  induction ranks with
  | nil => simp
  | cons q ranks ih =>
      have hq := hle q List.mem_cons_self
      have htail := sum_le_length fun r hr => hle r (List.mem_cons_of_mem q hr)
      simp only [List.map_cons, List.sum_cons, List.length_cons] at hsum
      intro r hr
      rcases List.mem_cons.mp hr with rfl | hr
      · omega
      · exact ih (fun r hr => hle r (List.mem_cons_of_mem q hr)) (by omega) r hr

/-- What ranks that finished put in announces itself. -/
theorem Contributes.union_closed (h : Contributes n p ins finished) (hlt : ∀ r ∈ ranks, r < n)
    (hfinished : ∀ r ∈ ranks, finished r = true) :
    (union p ranks).countP Msg.isFinish = ranks.length
      ∧ ((union p ranks).map Msg.announced).sum + ranks.length = (union p ranks).length := by
  induction ranks with
  | nil => simp [union]
  | cons r ranks ih =>
      have hr := hlt r List.mem_cons_self
      have hfin := hfinished r List.mem_cons_self
      have hcount := h.finishes_eq hr
      have hlength := h.length_eq hr
      have hannounced := h.announced_eq hr
      rw [hfin, if_pos rfl] at hcount hlength hannounced
      obtain ⟨hih, hih'⟩ := ih (fun q hq => hlt q (List.mem_cons_of_mem r hq))
        fun q hq => hfinished q (List.mem_cons_of_mem r hq)
      simp only [union, List.flatMap_cons, List.countP_append, List.map_append, List.sum_append,
        List.length_append, List.length_cons] at hih hih' ⊢
      omega

/-- A closed part of what the others put in is all of it, and they have finished. -/
theorem Closed.perm (h : Contributes n p ins finished) (hclosed : Closed n l)
    (hlt : ∀ r ∈ ranks, r < n) (hlength : ranks.length + 1 = n)
    (hsub : List.Subperm l (union p ranks)) :
    l.Perm (union p ranks) ∧ ∀ r ∈ ranks, finished r = true := by
  have hfinish : ∀ r ∈ ranks, (p r).countP Msg.isFinish ≤ 1 := fun r hr => by
    rw [h.finishes_eq (hlt r hr)]
    split <;> omega
  have hsum : (union p ranks).countP Msg.isFinish
      = (ranks.map fun r => (p r).countP Msg.isFinish).sum := List.countP_flatMap
  have hcount := hsub.countP_le Msg.isFinish
  have hall := eq_one_of_sum_eq hfinish (by
    have hn := hclosed.1
    omega)
  have hfinished : ∀ r ∈ ranks, finished r = true := by
    intro r hr
    have hone := hall r hr
    rw [h.finishes_eq (hlt r hr)] at hone
    by_contra hnot
    rw [if_neg hnot] at hone
    cases hone
  obtain ⟨hunion, htotal⟩ := h.union_closed hlt hfinished
  refine ⟨hsub.perm_of_length_le ?_, hfinished⟩
  -- the finish messages are all there, so that the announced number is that of all contributions
  have hperm : (l.filter Msg.isFinish).Perm ((union p ranks).filter Msg.isFinish) := by
    refine (hsub.filter Msg.isFinish).perm_of_length_le ?_
    rw [← List.countP_eq_length_filter, ← List.countP_eq_length_filter, hunion]
    have hn := hclosed.1
    omega
  have hannounced : (l.map Msg.announced).sum = ((union p ranks).map Msg.announced).sum := by
    rw [← announced_filter l, ← announced_filter (union p ranks)]
    exact (hperm.map Msg.announced).sum_eq
  have hrest := hclosed.2
  have hn := hclosed.1
  omega

/-- All of what ranks that finished put in is closed. -/
theorem Contributes.closed (h : Contributes n p ins finished) (hlt : ∀ r ∈ ranks, r < n)
    (hlength : ranks.length + 1 = n) (hfinished : ∀ r ∈ ranks, finished r = true)
    (hperm : l.Perm (union p ranks)) : Closed n l := by
  obtain ⟨hunion, htotal⟩ := h.union_closed hlt hfinished
  have hcount := hperm.countP_eq Msg.isFinish
  have hannounced := (hperm.map Msg.announced).sum_eq
  have hlen := hperm.length_eq
  constructor
  · omega
  · omega

end Rapidsmpf.AllGather
