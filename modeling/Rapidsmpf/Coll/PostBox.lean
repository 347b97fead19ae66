import Mathlib
import Rapidsmpf.Lib.GreedyCover
import Rapidsmpf.Memory.Spill
import Rapidsmpf.Coll.Chunk

/-!
# Spilling the chunks of a post box

`PostBox::spill` in `coll/utils.cpp`. The loop over the sorted vector spills exactly the greedy
choice, `spill_loop_eq`, whatever the attempts do. So `spill_covers` is the correctness of that
choice, and what a failure leaves behind follows from spilling a list of chunks one after the
other.

A pointer to a chunk is its position in the box. The order of chunks of equal sizes after
`std::ranges::sort` is unspecified, so the sorting is a parameter.
-/

namespace Rapidsmpf.Coll

open GreedyCover Memory
open Streaming (spillTargetMemoryTypes)

namespace Chunk

/-- `memory_type`. -/
def memoryType (c : Chunk) : MemoryType :=
  match c.data with
  | some b => b.memType
  | none => .host

/-- `spill_chunk`: what is left of the chunk, and how the call ends. -/
def spill (a : Memory.Attempt) (c : Chunk) : Chunk × Except SpillFailure Unit :=
  match a.reserveOrFail with
  | .error e => (c, .error e)
  | .ok t =>
      match c.releaseDataBuffer with
      | .error e => (c, .error (.check e))
      | .ok (b, c) =>
          match a.move b t with
          | .error e => (c, .error e)
          | .ok b =>
              match c.attachDataBuffer b with
              | .error e => (c, .error (.check e))
              | .ok c => (c, .ok ())

/-- The chunk is untouched, or moved with all its data. -/
structure Intact (c c' : Chunk) : Prop where
  fields : c' = { c with data := c'.data }
  data : Kept c.data c'.data

/-- The chunk has left the device for a spill target, with all its data. -/
def Moved (c c' : Chunk) : Prop :=
  ∃ b t, c.data = some b ∧ t ∈ spillTargetMemoryTypes ∧
    c' = { c with data := some { b with memType := t } }

theorem memory_type_eq_device {c : Chunk} (h : c.memoryType = .device) :
    ∃ b, c.data = some b ∧ b.memType = .device := by
  unfold memoryType at h
  cases hd : c.data with
  | none =>
      rw [hd] at h
      cases h
  | some b =>
      rw [hd] at h
      exact ⟨b, rfl, h⟩

/-- What `spill_chunk` does to a chunk that has data on the device. -/
theorem spill_effect {c : Chunk} {b : Buffer} (hb : c.data = some b) (hdevice : b.memType = .device)
    (hsize : b.size = c.dataSize) (a : Memory.Attempt) :
    ∃ d r, c.spill a = ({ c with data := d }, r) ∧ a.Effect b d r := by
  cases hreserved : a.reserved with
  | none =>
      refine ⟨some b, .error .reserve, ?_, .refused hreserved⟩
      rw [← hb, spill, Memory.Attempt.reserveOrFail, hreserved]
      rfl
  | some t =>
      have hne : t.1 ≠ b.memType := hdevice ▸ Memory.Attempt.target_ne_device t
      cases hallocates : a.allocates with
      | false =>
          refine ⟨none, .error .allocate, ?_, .lost (by rw [hreserved]; rfl) hallocates⟩
          simp [spill, Memory.Attempt.reserveOrFail, hreserved, releaseDataBuffer, hb,
            Memory.Attempt.move, hne, hallocates, pure, Except.pure, throw, throwThe,
            MonadExceptOf.throw]
      | true =>
          refine ⟨some { b with memType := t.1 }, .ok (), ?_, .moved t hreserved hallocates⟩
          have hsize' : Buffer.size { b with memType := t.1 } = c.dataSize := hsize
          simp [spill, Memory.Attempt.reserveOrFail, hreserved, releaseDataBuffer, hb,
            Memory.Attempt.move, hne, hallocates, attachDataBuffer, hsize', pure, Except.pure]

end Chunk

/-- `std::ranges::sort` with the size of a chunk as the projection. -/
structure Sorting where
  run : ∀ {n : Nat}, (Fin n → Nat) → List (Fin n) → List (Fin n)
  perm : ∀ {n : Nat} (key : Fin n → Nat) (l : List (Fin n)), (run key l).Perm l
  sorted : ∀ {n : Nat} (key : Fin n → Nat) (l : List (Fin n)),
    (run key l).Pairwise fun i j => key i ≤ key j

/-- The chunks of a box during a spill, those spilled so far in the order of the attempts, and
`total_spilled`. -/
structure Spilling (n : Nat) where
  chunk : Fin n → Chunk
  spilled : List (Fin n)
  total : UInt64

namespace Spilling

variable {n : Nat}

/-- `data_size` of a chunk. -/
def size (s : Spilling n) (i : Fin n) : Nat := (s.chunk i).dataSize

/-- `total_spilled += spill_chunk(chunk)`. -/
def spillAt (env : Nat → Memory.Attempt) (i : Fin n) (s : Spilling n) :
    Spilling n × Except SpillFailure Unit :=
  match (s.chunk i).spill (env s.spilled.length) with
  | (c, .error e) => ({ s with chunk := Function.update s.chunk i c }, .error e)
  | (c, .ok ()) =>
      (⟨Function.update s.chunk i c, s.spilled ++ [i], s.total + .ofNat c.dataSize⟩, .ok ())

/-- The loop that spills everything. -/
def spillEach (env : Nat → Memory.Attempt) :
    List (Fin n) → Spilling n → Spilling n × Except SpillFailure Unit
  | [], s => (s, .ok ())
  | i :: rest, s =>
      match s.spillAt env i with
      | (s, .error e) => (s, .error e)
      | (s, .ok ()) => spillEach env rest s

/-- The loop over the sorted vector, which is given from its back. -/
def spillLoop (env : Nat → Memory.Attempt) (amount : UInt64) :
    List (Fin n) → Spilling n → Spilling n × Except SpillFailure Unit
  | [], s => (s, .ok ())
  | back :: rest, s =>
      -- std::ranges::lower_bound
      let pos := (back :: rest).reverse.find? fun i => (amount - s.total).toNat ≤ s.size i
      match s.spillAt env (pos.getD back) with
      | (s, .error e) => (s, .error e)
      | (s, .ok ()) => if amount ≤ s.total then (s, .ok ()) else spillLoop env amount rest s

end Spilling

/-- The positions of the chunks on the device, in the order of the box. -/
def spillableChunks {n : Nat} (chunk : Fin n → Chunk) : List (Fin n) :=
  (List.finRange n).filter fun i => (chunk i).memoryType = .device

/-- `PostBox`. A chunk knows the size of its data, and the chunks on the device are in memory at
the same time. -/
structure PostBox where
  length : Nat
  chunk : Fin length → Chunk
  size_eq : ∀ i b, (chunk i).data = some b → b.size = (chunk i).dataSize
  fits : total (fun i => (chunk i).dataSize) (spillableChunks chunk) < 2 ^ 64

namespace PostBox

/-- `spill`: the box afterwards, and the bytes spilled unless an exception is thrown. -/
def spill (sort : Sorting) (env : Nat → Memory.Attempt) (amount : UInt64) (box : PostBox) :
    Spilling box.length × Except SpillFailure UInt64 :=
  let s : Spilling box.length := ⟨box.chunk, [], 0⟩
  let spillable := spillableChunks box.chunk
  let maxSpillable := spillable.foldl (fun acc i => acc + .ofNat (s.size i)) (0 : UInt64)
  let result :=
    if maxSpillable < amount then s.spillEach env spillable
    else s.spillLoop env amount (sort.run s.size spillable).reverse
  (result.1, result.2.map fun _ => result.1.total)

end PostBox

/-! ## The loop makes the greedy choice -/

theorem Chunk.dataSize_spill (a : Memory.Attempt) (c : Chunk) :
    (c.spill a).1.dataSize = c.dataSize := by
  unfold Chunk.spill Chunk.releaseDataBuffer Chunk.attachDataBuffer
  repeat' split
  all_goals simp_all [pure, Except.pure, throw, throwThe, MonadExceptOf.throw]
  all_goals grind

namespace Spilling

variable {n : Nat} {env : Nat → Memory.Attempt} {i : Fin n} {s s' : Spilling n}

/-- How one call goes: it fails, or the chunk is counted. -/
theorem spill_at_eq (env : Nat → Memory.Attempt) (i : Fin n) (s : Spilling n) :
    (∃ c e, s.spillAt env i = ({ s with chunk := Function.update s.chunk i c }, .error e) ∧
      (s.chunk i).spill (env s.spilled.length) = (c, .error e)) ∨
    ∃ c, s.spillAt env i = (⟨Function.update s.chunk i c, s.spilled ++ [i],
        s.total + .ofNat (s.size i)⟩, .ok ()) ∧
      (s.chunk i).spill (env s.spilled.length) = (c, .ok ()) := by
  have hsize := Chunk.dataSize_spill (env s.spilled.length) (s.chunk i)
  unfold spillAt
  cases hspill : (s.chunk i).spill (env s.spilled.length) with
  | mk c r =>
      rw [hspill] at hsize
      cases r with
      | error e => exact .inl ⟨c, e, rfl, rfl⟩
      | ok u => exact .inr ⟨c, by rw [size, ← hsize], rfl⟩

/-- The sizes do not change. -/
theorem size_spill_at (env : Nat → Memory.Attempt) (i : Fin n) (s : Spilling n) :
    (s.spillAt env i).1.size = s.size := by
  obtain ⟨c, hc, hchunk⟩ : ∃ c : Chunk, c.dataSize = s.size i ∧
      (s.spillAt env i).1.chunk = Function.update s.chunk i c := by
    have hsize := Chunk.dataSize_spill (env s.spilled.length) (s.chunk i)
    rcases spill_at_eq env i s with ⟨c, e, heq, hspill⟩ | ⟨c, heq, hspill⟩
    · exact ⟨c, by rwa [hspill] at hsize, by rw [heq]⟩
    · exact ⟨c, by rwa [hspill] at hsize, by rw [heq]⟩
  funext j
  show ((s.spillAt env i).1.chunk j).dataSize = (s.chunk j).dataSize
  rw [hchunk]
  rcases eq_or_ne j i with rfl | hne
  · rw [Function.update_self, hc, size]
  · rw [Function.update_of_ne hne]

theorem total_spill_at (h : s.spillAt env i = (s', .ok ()))
    (hfits : s.total.toNat + s.size i < 2 ^ 64) :
    s'.total.toNat = s.total.toNat + s.size i := by
  rcases spill_at_eq env i s with ⟨c, e, heq, -⟩ | ⟨c, heq, -⟩
  · rw [heq] at h
    cases (Prod.mk.inj h).2
  · rw [heq] at h
    obtain ⟨rfl, -⟩ := Prod.mk.inj h
    show (s.total + UInt64.ofNat (s.size i)).toNat = _
    have hlt : s.size i < UInt64.size := lt_of_le_of_lt (Nat.le_add_left _ _) hfits
    rw [UInt64.toNat_add, UInt64.toNat_ofNat_of_lt' hlt, Nat.mod_eq_of_lt hfits]

theorem size_le_total {size : Fin n → Nat} {l : List (Fin n)} (hi : i ∈ l) :
    size i ≤ GreedyCover.total size l :=
  List.single_le_sum (fun _ _ => Nat.zero_le _) _ (List.mem_map_of_mem hi)

/-- The loop over the sorted vector spills the greedy choice, one chunk after the other. -/
theorem spill_loop_eq {amount : UInt64} {rest : List (Fin n)} (hle : s.total ≤ amount)
    (hfits : s.total.toNat + GreedyCover.total s.size rest < 2 ^ 64) :
    s.spillLoop env amount rest
      = s.spillEach env (picks s.size (amount.toNat - s.total.toNat) rest) := by
  induction rest generalizing s with
  | nil => rfl
  | cons back rest ih =>
      have hgap : (amount - s.total).toNat = amount.toNat - s.total.toNat :=
        UInt64.toNat_sub_of_le _ _ hle
      have hopen : s.total.toNat ≤ amount.toNat := UInt64.le_iff_toNat_le.mp hle
      unfold spillLoop picks
      simp only [hgap]
      rw [show ((back :: rest).reverse.find? fun i =>
        amount.toNat - s.total.toNat ≤ s.size i).getD back
          = pick s.size (amount.toNat - s.total.toNat) back rest from rfl]
      generalize hpick : pick s.size (amount.toNat - s.total.toNat) back rest = i
      have hmem : i ∈ back :: rest := hpick ▸ pick_mem
      have hsmall : s.size i ≤ GreedyCover.total s.size (back :: rest) := size_le_total hmem
      cases hat : s.spillAt env i with
      | mk s' r =>
      cases r with
      | error e =>
          show (s', Except.error e) = _
          split
          · simp only [spillEach, hat]
          · simp only [spillEach, hat]
      | ok u =>
          have htotal := total_spill_at hat (by omega)
          have hsize : s'.size = s.size := by rw [← size_spill_at env i s, hat]
          show (if amount ≤ s'.total then (s', Except.ok ()) else s'.spillLoop env amount rest) = _
          by_cases hclosed : amount.toNat - s.total.toNat ≤ s.size i
          · rw [if_pos hclosed, if_pos (UInt64.le_iff_toNat_le.mpr (by omega)), spillEach, hat]
            rfl
          · obtain ⟨rfl, -⟩ : i = back ∧ _ := hpick ▸ pick_of_lt (hpick ▸ Nat.lt_of_not_le hclosed)
            have hlt : s'.total < amount := UInt64.lt_iff_toNat_lt.mpr (by omega)
            rw [GreedyCover.total_cons] at hfits
            rw [if_neg hclosed, if_neg (UInt64.not_le.mpr hlt), spillEach, hat,
              ih (UInt64.le_of_lt hlt) (by rw [hsize]; omega), hsize, htotal, Nat.sub_sub]

end Spilling

/-! ## Spilling a list of chunks -/

namespace Spilling

variable {n : Nat} {env : Nat → Memory.Attempt} {i : Fin n} {l : List (Fin n)} {s s' : Spilling n}
  {e : SpillFailure}

/-- The chunks of the list have their data on the device. -/
def OnDevice (s : Spilling n) (l : List (Fin n)) : Prop :=
  ∀ i ∈ l, ∃ b, (s.chunk i).data = some b ∧ b.memType = .device ∧ b.size = s.size i

/-- What one call does to a chunk on the device. -/
theorem spill_at_effect (env : Nat → Memory.Attempt) (h : s.OnDevice (i :: l)) :
    ∃ b d r s₁, s.spillAt env i = (s₁, r) ∧ (s.chunk i).data = some b ∧ b.memType = .device ∧
      (env s.spilled.length).Effect b d r ∧
      s₁.chunk = Function.update s.chunk i { s.chunk i with data := d } ∧
      (r = .ok () → s₁.spilled = s.spilled ++ [i]) := by
  obtain ⟨b, hb, hdevice, hsize⟩ := h i List.mem_cons_self
  obtain ⟨d, r, hspill, heffect⟩ := Chunk.spill_effect hb hdevice hsize (env s.spilled.length)
  rcases spill_at_eq env i s with ⟨c, e, heq, hc⟩ | ⟨c, heq, hc⟩
  · obtain ⟨rfl, rfl⟩ := Prod.mk.inj (hspill.symm.trans hc)
    exact ⟨b, d, _, _, heq, hb, hdevice, heffect, rfl, fun h => by cases h⟩
  · obtain ⟨rfl, rfl⟩ := Prod.mk.inj (hspill.symm.trans hc)
    exact ⟨b, d, _, _, heq, hb, hdevice, heffect, rfl, fun _ => rfl⟩

/-- The other chunks stay as they are. -/
theorem chunk_spill_at (env : Nat → Memory.Attempt) {j : Fin n} (h : j ≠ i) (s : Spilling n) :
    (s.spillAt env i).1.chunk j = s.chunk j := by
  rcases spill_at_eq env i s with ⟨c, e, heq, -⟩ | ⟨c, heq, -⟩
  · rw [heq]
    exact Function.update_of_ne h _ _
  · rw [heq]
    exact Function.update_of_ne h _ _

theorem chunk_spill_each {j : Fin n} {r : Except SpillFailure Unit}
    (heq : s.spillEach env l = (s', r)) (h : j ∉ l) : s'.chunk j = s.chunk j := by
  induction l generalizing s with
  | nil => rw [(Prod.mk.inj heq).1]
  | cons i rest ih =>
      have hne : j ≠ i := fun heq => h (heq ▸ List.mem_cons_self)
      have hrest : j ∉ rest := fun hj => h (List.mem_cons_of_mem _ hj)
      have hchunk := chunk_spill_at env hne s
      unfold spillEach at heq
      split at heq
      · next s₁ e hat =>
          obtain ⟨rfl, -⟩ := Prod.mk.inj heq
          rwa [hat] at hchunk
      · next s₁ hat =>
          rw [hat] at hchunk
          exact (ih heq hrest).trans hchunk

/-- The chunks after the first are still on the device. -/
theorem OnDevice.tail {r : Except SpillFailure Unit} (h : s.OnDevice (i :: l)) (hi : i ∉ l)
    (hat : s.spillAt env i = (s', r)) : s'.OnDevice l := by
  intro j hj
  have hne : j ≠ i := fun heq => hi (heq ▸ hj)
  have hchunk := chunk_spill_at env hne s
  have hsize := size_spill_at env i s
  rw [hat] at hchunk hsize
  rw [hchunk, hsize]
  exact h j (List.mem_cons_of_mem _ hj)

/-- When every attempt succeeds, all chunks of the list are moved, in its order. -/
theorem spill_each_succeeds (henv : ∀ k, (env k).Succeeds) (hnodup : l.Nodup) (h : s.OnDevice l)
    (hfits : s.total.toNat + GreedyCover.total s.size l < 2 ^ 64) :
    ∃ s', s.spillEach env l = (s', .ok ()) ∧ s'.spilled = s.spilled ++ l ∧
      s'.total.toNat = s.total.toNat + GreedyCover.total s.size l ∧
      ∀ i ∈ l, (s.chunk i).Moved (s'.chunk i) := by
  induction l generalizing s with
  | nil => exact ⟨s, rfl, (List.append_nil _).symm, rfl, fun i hi => by cases hi⟩
  | cons i rest ih =>
      obtain ⟨hi, hrest⟩ := List.nodup_cons.mp hnodup
      obtain ⟨b, d, r, s₁, hat, hb, -, heffect, hchunk, hspilled⟩ := spill_at_effect env h
      have hsize : s₁.size = s.size := by rw [← size_spill_at env i s, hat]
      rw [GreedyCover.total_cons] at hfits
      cases heffect with
      | refused hnone =>
          have hsome := (henv s.spilled.length).1
          rw [hnone] at hsome
          cases hsome
      | lost _ hfalse =>
          have htrue := (henv s.spilled.length).2
          rw [hfalse] at htrue
          cases htrue
      | moved t hreserved hallocates =>
          have htotal := total_spill_at hat (by omega)
          obtain ⟨s', heq, hlog, hsum, hmoved⟩ :=
            ih hrest (h.tail hi hat) (by rw [hsize]; omega)
          refine ⟨s', by rw [spillEach, hat]; exact heq, ?_, ?_, fun j hj => ?_⟩
          · rw [hlog, hspilled rfl, List.append_assoc, List.singleton_append]
          · rw [hsum, htotal, hsize, GreedyCover.total_cons, Nat.add_assoc]
          · rcases List.mem_cons.mp hj with rfl | hjr
            · refine ⟨b, t.1, hb, t.2, ?_⟩
              rw [chunk_spill_each heq hi, hchunk, Function.update_self]
            · have hne : j ≠ i := fun heq => hi (heq ▸ hjr)
              have hmv := hmoved j hjr
              rwa [hchunk, Function.update_of_ne hne] at hmv

/-- When an exception ends it, all chunks have their data unless the failing attempt had got its
reservation. -/
theorem spill_each_fails (hnodup : l.Nodup) (h : s.OnDevice l)
    (hbefore : ∀ j < s.spilled.length, (env j).Succeeds)
    (hfails : s.spillEach env l = (s', .error e)) :
    (∀ j, (s.chunk j).Intact (s'.chunk j)) ↔ FailsReserving env := by
  induction l generalizing s with
  | nil => cases (Prod.mk.inj hfails).2
  | cons i rest ih =>
      obtain ⟨hi, hrest⟩ := List.nodup_cons.mp hnodup
      obtain ⟨b, d, r, s₁, hat, hb, hdevice, heffect, hchunk, hspilled⟩ := spill_at_effect env h
      rw [spillEach, hat] at hfails
      cases r with
      | error e₁ =>
          obtain ⟨rfl, -⟩ := Prod.mk.inj hfails
          rw [← heffect.kept_iff hbefore, ← hb]
          constructor
          · intro hintact
            have hdata := (hintact i).data
            rwa [hchunk, Function.update_self] at hdata
          · intro hkept j
            rw [hchunk]
            rcases eq_or_ne j i with rfl | hne
            · rw [Function.update_self]
              exact ⟨rfl, hkept⟩
            · rw [Function.update_of_ne hne]
              exact ⟨rfl, .untouched⟩
      | ok u =>
          have hbefore' : ∀ j < s₁.spilled.length, (env j).Succeeds := by
            intro j hj
            rw [hspilled rfl, List.length_append, List.length_singleton] at hj
            rcases Nat.lt_succ_iff_lt_or_eq.mp hj with hlt | rfl
            · exact hbefore j hlt
            · exact heffect.succeeds
          rw [← ih hrest (h.tail hi hat) hbefore' hfails]
          have hlast : s'.chunk i = s₁.chunk i := chunk_spill_each hfails hi
          have hmoved : (s.chunk i).Intact (s₁.chunk i) := by
            rw [hchunk, Function.update_self]
            refine ⟨rfl, ?_⟩
            cases heffect with
            | moved t _ _ => exact .moved b t.1 hb hdevice t.2
          refine forall_congr' fun j => ?_
          rcases eq_or_ne j i with rfl | hne
          · rw [hlast]
            exact ⟨fun _ => ⟨rfl, .untouched⟩, fun _ => hmoved⟩
          · rw [hchunk, Function.update_of_ne hne]

end Spilling

/-! ## What is spilled -/

namespace PostBox

variable (sort : Sorting) (amount : UInt64) (box : PostBox)

/-- `data_size` of a chunk. -/
def size (i : Fin box.length) : Nat := (box.chunk i).dataSize

/-- The bytes on the device. -/
def deviceBytes : Nat := total box.size (spillableChunks box.chunk)

/-- The vector of the loop, from its back. -/
def descending : List (Fin box.length) := (sort.run box.size (spillableChunks box.chunk)).reverse

/-- The chunks to spill: all that are on the device when they are not enough, else the greedy
choice. -/
def toSpill : List (Fin box.length) :=
  if box.deviceBytes < amount.toNat then spillableChunks box.chunk
  else picks box.size amount.toNat (box.descending sort)

/-- The state in which a spill starts. -/
def start : Spilling box.length := ⟨box.chunk, [], 0⟩

/-- What `spill` does to a box when no exception is thrown. -/
structure Spills (box : PostBox) (amount : UInt64) (s : Spilling box.length) : Prop where
  device : ∀ i ∈ s.spilled, (box.chunk i).memoryType = .device
  once : s.spilled.Nodup
  total : s.total.toNat = total box.size s.spilled
  enough : min amount.toNat box.deviceBytes ≤ s.total.toNat
  moved : ∀ i ∈ s.spilled, (box.chunk i).Moved (s.chunk i)
  others : ∀ i, i ∉ s.spilled → s.chunk i = box.chunk i
  no_underflow : amount.toNat ≤ box.deviceBytes →
    ∀ front back, s.spilled = front ++ back → back ≠ [] →
      GreedyCover.total box.size front < amount.toNat
  fewest : amount.toNat ≤ box.deviceBytes → ∀ t : Finset (Fin box.length),
    (∀ i ∈ t, (box.chunk i).memoryType = .device) → amount.toNat ≤ ∑ i ∈ t, box.size i →
      s.spilled.length ≤ t.card
  last : amount.toNat ≤ box.deviceBytes → ∃ front i, s.spilled = front ++ [i] ∧
    amount.toNat ≤ GreedyCover.total box.size front + box.size i ∧
    ∀ j, (box.chunk j).memoryType = .device → j ∉ front →
      amount.toNat ≤ GreedyCover.total box.size front + box.size j → box.size i ≤ box.size j
  everything : box.deviceBytes < amount.toNat →
    ∀ i, (box.chunk i).memoryType = .device → i ∈ s.spilled

variable {sort amount box}

theorem mem_spillable {i : Fin box.length} :
    i ∈ spillableChunks box.chunk ↔ (box.chunk i).memoryType = .device := by
  simp [spillableChunks]

theorem spillable_nodup : (spillableChunks box.chunk).Nodup := (List.nodup_finRange _).filter _

theorem descending_perm : (box.descending sort).Perm (spillableChunks box.chunk) :=
  (List.reverse_perm _).trans (sort.perm _ _)

theorem total_perm {n : Nat} {size : Fin n → Nat} {l l' : List (Fin n)} (h : l.Perm l') :
    total size l = total size l' := (h.map size).sum_eq

theorem to_nat_sum {n : Nat} (size : Fin n → Nat) (l : List (Fin n)) (acc : UInt64)
    (hfits : acc.toNat + total size l < 2 ^ 64) :
    (l.foldl (fun acc i => acc + .ofNat (size i)) acc).toNat = acc.toNat + total size l := by
  induction l generalizing acc with
  | nil => rfl
  | cons i rest ih =>
      rw [total_cons] at hfits
      have hlt : size i < UInt64.size := by
        show size i < 2 ^ 64
        omega
      have hadd : (acc + UInt64.ofNat (size i)).toNat = acc.toNat + size i := by
        rw [UInt64.toNat_add, UInt64.toNat_ofNat_of_lt' hlt, Nat.mod_eq_of_lt (by omega)]
      rw [List.foldl_cons, ih _ (by omega), hadd, total_cons, Nat.add_assoc]

/-- The spill is that of the list `toSpill`. -/
theorem spill_eq (env : Nat → Memory.Attempt) :
    box.spill sort env amount = ((box.start.spillEach env (box.toSpill sort amount)).1,
      (box.start.spillEach env (box.toSpill sort amount)).2.map fun _ =>
        (box.start.spillEach env (box.toSpill sort amount)).1.total) := by
  have hmax := to_nat_sum box.size (spillableChunks box.chunk) 0
    (lt_of_eq_of_lt (Nat.zero_add _) box.fits)
  rw [show (0 : UInt64).toNat = 0 from rfl, Nat.zero_add] at hmax
  suffices hresult : (if (spillableChunks box.chunk).foldl
      (fun acc i => acc + UInt64.ofNat (box.size i)) 0 < amount
      then box.start.spillEach env (spillableChunks box.chunk)
      else box.start.spillLoop env amount (box.descending sort))
        = box.start.spillEach env (box.toSpill sort amount) by
    unfold spill
    rw [← hresult]
    rfl
  unfold toSpill
  by_cases hall : box.deviceBytes < amount.toNat
  · rw [if_pos hall, if_pos (UInt64.lt_iff_toNat_lt.mpr (by rw [hmax]; exact hall))]
  · rw [if_neg hall, if_neg (fun h => hall (by rw [UInt64.lt_iff_toNat_lt, hmax] at h; exact h))]
    have hfits : box.start.total.toNat + total box.start.size (box.descending sort) < 2 ^ 64 := by
      rw [total_perm descending_perm]
      exact (Nat.zero_add _).symm ▸ box.fits
    exact Spilling.spill_loop_eq (UInt64.le_iff_toNat_le.mpr (Nat.zero_le _)) hfits

theorem to_spill_covers (sort : Sorting) (hpos : 0 < amount) (h : amount.toNat ≤ box.deviceBytes) :
    Covers box.size (box.descending sort) amount.toNat (box.toSpill sort amount) := by
  rw [toSpill, if_neg (Nat.not_lt.mpr h)]
  refine picks_covers ?_ ?_ (UInt64.lt_iff_toNat_lt.mp hpos) ?_
  · exact List.pairwise_reverse.mpr (sort.sorted _ _)
  · exact descending_perm.nodup_iff.mpr spillable_nodup
  · rwa [total_perm descending_perm]

theorem to_spill_device {i : Fin box.length} (hi : i ∈ box.toSpill sort amount) :
    (box.chunk i).memoryType = .device := by
  unfold toSpill at hi
  split at hi
  · exact mem_spillable.mp hi
  · exact mem_spillable.mp (descending_perm.mem_iff.mp (picks_subset hi))

theorem to_spill_nodup : (box.toSpill sort amount).Nodup := by
  unfold toSpill
  split
  · exact spillable_nodup
  · exact picks_nodup (descending_perm.nodup_iff.mpr spillable_nodup)

theorem on_device (sort : Sorting) : box.start.OnDevice (box.toSpill sort amount) := by
  intro i hi
  obtain ⟨b, hb, hdevice⟩ := Chunk.memory_type_eq_device (to_spill_device hi)
  exact ⟨b, hb, hdevice, box.size_eq i b hb⟩

/-- What is spilled is a part of what is on the device. -/
theorem total_to_spill_le : total box.size (box.toSpill sort amount) ≤ box.deviceBytes := by
  have hsub : (box.toSpill sort amount).Subperm (spillableChunks box.chunk) :=
    List.subperm_of_subset to_spill_nodup fun i hi => mem_spillable.mpr (to_spill_device hi)
  obtain ⟨l, hperm, hl⟩ := hsub
  rw [← total_perm hperm]
  exact (hl.map _).sum_le_sum fun _ _ => Nat.zero_le _

/-- `spill` moves the greedy choice of the chunks on the device, each once, and nothing else. -/
theorem spill_covers (sort : Sorting) (env : Nat → Memory.Attempt) (henv : ∀ k, (env k).Succeeds)
    (box : PostBox) (amount : UInt64) (hpos : 0 < amount) :
    ∃ s, box.spill sort env amount = (s, .ok s.total) ∧ Spills box amount s := by
  have hle : total box.size (box.toSpill sort amount) ≤ box.deviceBytes := total_to_spill_le
  have hfits : box.start.total.toNat + total box.size (box.toSpill sort amount) < 2 ^ 64 :=
    lt_of_le_of_lt (by rw [show box.start.total.toNat = 0 from rfl, Nat.zero_add]; exact hle)
      box.fits
  obtain ⟨s, heq, hspilled, htotal, hmoved⟩ :=
    Spilling.spill_each_succeeds henv to_spill_nodup (on_device sort) hfits
  have hlist : s.spilled = box.toSpill sort amount := hspilled
  have hsum : s.total.toNat = total box.size (box.toSpill sort amount) :=
    htotal.trans (Nat.zero_add _)
  refine ⟨s, by rw [spill_eq, heq]; rfl, ?_⟩
  constructor
  case device => exact fun i hi => to_spill_device (hlist ▸ hi)
  case once => exact hlist ▸ to_spill_nodup
  case total => rw [hsum, hlist]
  case enough =>
    rw [hsum]
    rcases Nat.lt_or_ge box.deviceBytes amount.toNat with hlt | hge
    · rw [toSpill, if_pos hlt]
      exact Nat.min_le_right _ _
    · exact le_trans (Nat.min_le_left _ _) (to_spill_covers sort hpos hge).closes
  case moved => exact fun i hi => hmoved i (hlist ▸ hi)
  case others => exact fun i hi => Spilling.chunk_spill_each heq (hlist ▸ hi)
  case no_underflow =>
    intro h front back hsplit
    exact (to_spill_covers sort hpos h).early front back (hlist ▸ hsplit)
  case fewest =>
    intro h t ht
    rw [hlist]
    exact (to_spill_covers sort hpos h).fewest t fun i hi =>
      descending_perm.mem_iff.mpr (mem_spillable.mpr (ht i hi))
  case last =>
    intro h
    have hcovers := to_spill_covers sort hpos h
    obtain ⟨front, i, hsplit, hleast⟩ := hcovers.last
    have hcloses := hcovers.closes
    rw [hsplit, total_append, total_cons, total_nil, Nat.add_zero] at hcloses
    exact ⟨front, i, hlist.trans hsplit, hcloses, fun j hj =>
      hleast j (descending_perm.mem_iff.mpr (mem_spillable.mpr hj))⟩
  case everything =>
    intro hlt i hi
    rw [hlist, toSpill, if_pos hlt]
    exact mem_spillable.mpr hi

/-! ## A failing spill -/

/-- After an exception every chunk of the box has its data exactly if the first attempt that fails
does so in the reservation. -/
theorem spill_fails {env : Nat → Memory.Attempt} {s : Spilling box.length}
    {e : SpillFailure} (h : box.spill sort env amount = (s, .error e)) :
    (∀ i, (box.chunk i).Intact (s.chunk i)) ↔ FailsReserving env := by
  rw [spill_eq] at h
  obtain ⟨hs, he⟩ := Prod.mk.inj h
  cases hrun : box.start.spillEach env (box.toSpill sort amount) with
  | mk s' r =>
      rw [hrun] at hs he
      obtain rfl : s' = s := hs
      cases r with
      | ok u => cases he
      | error e' =>
          exact Spilling.spill_each_fails to_spill_nodup (on_device sort)
            (fun j hj => by cases hj) hrun

/-! ## Runs -/

/-- Insertion sort. -/
def insertionSorting : Sorting where
  run key l := l.insertionSort fun i j => key i ≤ key j
  perm _ _ := List.perm_insertionSort _ _
  sorted key l := by
    have htotal : Std.Total fun i j => key i ≤ key j := ⟨fun i j => Nat.le_total _ _⟩
    have htrans : IsTrans _ fun i j => key i ≤ key j := ⟨fun i j k => Nat.le_trans⟩
    exact List.pairwise_insertionSort _ _

/-- A chunk with one byte of device data. -/
def deviceChunk : Chunk := .fromPackedData 0 0 none ⟨[], .singleton .device 7⟩

theorem device_chunk_size (b : Buffer) (h : deviceChunk.data = some b) :
    b.size = deviceChunk.dataSize := by
  obtain rfl := Option.some.inj h
  rfl

/-- A box that holds this chunk and a finish chunk. -/
def oneDeviceChunk (i : Fin 2) : Chunk :=
  if i.val = 0 then deviceChunk else .fromEmpty 1 0 none

theorem one_device_chunk_size (i : Fin 2) (b : Buffer) (h : (oneDeviceChunk i).data = some b) :
    b.size = (oneDeviceChunk i).dataSize := by
  unfold oneDeviceChunk at h ⊢
  split_ifs at h ⊢
  · exact device_chunk_size b h
  · cases h

theorem one_device_fits :
    total (fun i => (oneDeviceChunk i).dataSize) (spillableChunks oneDeviceChunk) < 2 ^ 64 := by
  decide

def oneDevice : PostBox where
  length := 2
  chunk := oneDeviceChunk
  size_eq := one_device_chunk_size
  fits := one_device_fits

/-- An attempt that gets pinned memory. -/
def pinned (allocates : Bool) : Memory.Attempt :=
  ⟨some ⟨.pinnedHost, List.mem_cons_self⟩, allocates⟩

/-- Device data of one, two and four bytes, behind a finish chunk. -/
def severalDeviceChunks (i : Fin 4) : Chunk :=
  if i.val = 0 then .fromEmpty 1 0 none
  else if i.val = 1 then deviceChunk
  else if i.val = 2 then .fromPackedData 2 0 none ⟨[], ⟨.device, [1, 2], by decide⟩⟩
  else .fromPackedData 3 0 none ⟨[], ⟨.device, [1, 2, 3, 4], by decide⟩⟩

theorem several_device_chunks_size (i : Fin 4) (b : Buffer)
    (h : (severalDeviceChunks i).data = some b) : b.size = (severalDeviceChunks i).dataSize := by
  unfold severalDeviceChunks at h ⊢
  split_ifs at h ⊢
  · cases h
  · exact device_chunk_size b h
  · obtain rfl := Option.some.inj h
    rfl
  · obtain rfl := Option.some.inj h
    rfl

theorem several_device_fits :
    total (fun i => (severalDeviceChunks i).dataSize) (spillableChunks severalDeviceChunks) <
      2 ^ 64 := by
  decide

def severalDevice : PostBox where
  length := 4
  chunk := severalDeviceChunks
  size_eq := several_device_chunks_size
  fits := several_device_fits

/-- No chunk has five bytes, so the largest one is spilled from the back; the byte that is then
missing is found in the smallest one. -/
theorem spill_covers_several : ∃ s, severalDevice.spill insertionSorting (fun _ => pinned true) 5
    = (s, .ok s.total) ∧ s.spilled.map Fin.val = [3, 1] ∧ Spills severalDevice 5 s := by
  obtain ⟨s, hrun, hspills⟩ := spill_covers insertionSorting (fun _ => pinned true)
    (fun _ => ⟨rfl, rfl⟩) severalDevice 5 (by decide)
  refine ⟨s, hrun, ?_, hspills⟩
  have hspilled : (severalDevice.spill insertionSorting (fun _ => pinned true) 5).1.spilled.map
      Fin.val = [3, 1] := by decide
  rw [hrun] at hspilled
  exact hspilled

end PostBox

end Rapidsmpf.Coll
