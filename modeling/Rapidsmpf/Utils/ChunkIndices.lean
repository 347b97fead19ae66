import Mathlib
import Rapidsmpf.Lib.FrontLoaded

/-!
# Chunks of an index range

`ceil_div` and `chunk_indices` of `utils/misc.hpp`. The bounds of a chunk are products of 64 bits,
which wrap around. `chunk_indices_tile_iff` says for which arguments the chunks tile the range all
the same: the number of chunks times the size of one is the largest product.
-/

namespace Rapidsmpf.Utils

open FrontLoaded

/-! ## The code -/

/-- `ceil_div`. -/
def ceilDiv (x y : UInt64) : UInt64 := x / y + if x % y ≠ 0 then 1 else 0

/-- `std::min`. -/
def stdMin (a b : UInt64) : UInt64 := if b < a then b else a

/-- `chunk_indices`. -/
def chunkIndices (count numChunks : UInt64) : List (UInt64 × UInt64) :=
  let chunkSize := ceilDiv count numChunks
  (List.range numChunks.toNat).map fun k =>
    (stdMin (.ofNat k * chunkSize) count, stdMin ((.ofNat k + 1) * chunkSize) count)

/-! ## Tilings -/

/-- The number of indices in a chunk. -/
def chunkLength (chunk : UInt64 × UInt64) : Nat := chunk.2.toNat - chunk.1.toNat

/-- The chunks tile the indices below `count`, the longer ones in front. -/
structure Tiles (count numChunks : UInt64) (chunks : List (UInt64 × UInt64)) : Prop where
  length : chunks.length = numChunks.toNat
  ordered : ∀ chunk ∈ chunks, chunk.1 ≤ chunk.2
  first : ∀ chunk ∈ chunks.head?, chunk.1 = 0
  adjacent : chunks.IsChain fun chunk next => next.1 = chunk.2
  last : ∀ chunk ∈ chunks.getLast?, chunk.2 = count
  bounded : ∀ chunk ∈ chunks, chunkLength chunk ≤ count.toNat ⌈/⌉ numChunks.toNat
  decreasing : chunks.Pairwise fun chunk later => chunkLength later ≤ chunkLength chunk

section

variable {count numChunks : UInt64} {k : Nat}

theorem std_min_to_nat (a b : UInt64) : (stdMin a b).toNat = min a.toNat b.toNat := by
  rw [stdMin]
  split
  · next hlt =>
      rw [UInt64.lt_iff_toNat_lt] at hlt
      omega
  · next hge =>
      rw [UInt64.lt_iff_toNat_lt] at hge
      omega

/-- `ceil_div` does not wrap around. -/
theorem ceil_div_to_nat (h : 0 < numChunks.toNat) :
    (ceilDiv count numChunks).toNat = count.toNat ⌈/⌉ numChunks.toNat := by
  rw [← div_add_eq_ceil h, ceilDiv, UInt64.toNat_add, UInt64.toNat_div]
  have hcount : count.toNat < 2 ^ 64 := count.toNat_lt
  have hdiv : count.toNat / numChunks.toNat ≤ count.toNat := Nat.div_le_self _ _
  by_cases hrem : count % numChunks = 0
  · have hmod : count.toNat % numChunks.toNat = 0 := by
      rw [← UInt64.toNat_mod, hrem]
      rfl
    rw [if_neg (not_not.mpr hrem), if_neg (not_not.mpr hmod)]
    exact Nat.mod_eq_of_lt (hdiv.trans_lt hcount)
  · have hmod : count.toNat % numChunks.toNat ≠ 0 := by
      intro hzero
      rw [← UInt64.toNat_mod] at hzero
      exact hrem (UInt64.toNat_inj.mp hzero)
    rw [if_pos hrem, if_pos hmod]
    -- a quotient of the largest number leaves no remainder
    have hlt : count.toNat / numChunks.toNat < count.toNat := by
      have hone : numChunks.toNat ≠ 1 := fun hone => hmod (by rw [hone, Nat.mod_one])
      have hpos : 0 < count.toNat := Nat.pos_of_ne_zero fun hzero => hmod (by simp [hzero])
      exact Nat.div_lt_self hpos (by omega)
    exact Nat.mod_eq_of_lt ((Nat.succ_le_of_lt hlt).trans_lt hcount)

/-- A bound of a chunk, with the product that may wrap around. -/
theorem bound_to_nat (hpos : 0 < numChunks.toNat) (h : k ≤ numChunks.toNat) :
    (stdMin (.ofNat k * ceilDiv count numChunks) count).toNat =
      min (k * (count.toNat ⌈/⌉ numChunks.toNat) % 2 ^ 64) count.toNat := by
  have hk : (UInt64.ofNat k).toNat = k := UInt64.toNat_ofNat_of_lt' (h.trans_lt numChunks.toNat_lt)
  rw [std_min_to_nat, UInt64.toNat_mul, hk, ceil_div_to_nat hpos]

theorem chunk_indices_eq (count numChunks : UInt64) : chunkIndices count numChunks =
    (List.range numChunks.toNat).map fun k =>
      (stdMin (.ofNat k * ceilDiv count numChunks) count,
        stdMin (.ofNat (k + 1) * ceilDiv count numChunks) count) := by
  have hsucc : ∀ k, UInt64.ofNat (k + 1) = UInt64.ofNat k + 1 := fun k => UInt64.ofNat_add k 1
  simp only [hsucc]
  rfl

/-- The last product that does not wrap around bounds all the others. -/
theorem bound_eq_cut (hpos : 0 < numChunks.toNat)
    (hfit : numChunks.toNat * (count.toNat ⌈/⌉ numChunks.toNat) < 2 ^ 64)
    (h : k ≤ numChunks.toNat) :
    (stdMin (.ofNat k * ceilDiv count numChunks) count).toNat =
      cut (count.toNat ⌈/⌉ numChunks.toNat) count.toNat k := by
  have hle : k * (count.toNat ⌈/⌉ numChunks.toNat) ≤
      numChunks.toNat * (count.toNat ⌈/⌉ numChunks.toNat) := Nat.mul_le_mul_right _ h
  rw [bound_to_nat hpos h, Nat.mod_eq_of_lt (hle.trans_lt hfit), cut]

/-- Without a wrap-around the chunks are the blocks of a front-loaded split. -/
theorem tiles_of_fit (hpos : 0 < numChunks.toNat)
    (hfit : numChunks.toNat * (count.toNat ⌈/⌉ numChunks.toNat) < 2 ^ 64) :
    Tiles count numChunks (chunkIndices count numChunks) := by
  have hcut : ∀ k ≤ numChunks.toNat,
      (stdMin (.ofNat k * ceilDiv count numChunks) count).toNat =
        cut (count.toNat ⌈/⌉ numChunks.toNat) count.toNat k := fun k hk => bound_eq_cut hpos hfit hk
  have hlength : ∀ k < numChunks.toNat, chunkLength
      (stdMin (.ofNat k * ceilDiv count numChunks) count,
        stdMin (.ofNat (k + 1) * ceilDiv count numChunks) count) =
      width (count.toNat ⌈/⌉ numChunks.toNat) count.toNat k := by
    intro k hk
    rw [chunkLength, hcut k hk.le, hcut (k + 1) hk, width]
  obtain ⟨n, hn⟩ := Nat.exists_eq_add_one.mpr hpos
  rw [chunk_indices_eq]
  refine ⟨?_, ?_, ?_, ?_, ?_, ?_, ?_⟩
  · rw [List.length_map, List.length_range]
  · intro chunk hchunk
    obtain ⟨k, hk, rfl⟩ := List.mem_map.mp hchunk
    rw [List.mem_range] at hk
    rw [UInt64.le_iff_toNat_le, hcut k hk.le, hcut (k + 1) hk]
    exact cut_mono (Nat.le_succ k)
  · intro chunk hchunk
    rw [hn, List.range_succ_eq_map, List.map_cons, List.head?_cons, Option.mem_some_iff] at hchunk
    rw [← hchunk]
    refine UInt64.toNat_inj.mp ((hcut 0 (Nat.zero_le _)).trans cut_zero)
  · rw [List.isChain_map, List.isChain_range]
    exact fun _ _ => rfl
  · intro chunk hchunk
    rw [hn, List.range_succ, List.map_append, List.map_singleton, List.getLast?_concat,
      Option.mem_some_iff] at hchunk
    rw [← hchunk]
    refine UInt64.toNat_inj.mp ((hcut (n + 1) hn.ge).trans ?_)
    rw [← hn]
    exact cut_eq_total (le_mul_ceil hpos)
  · intro chunk hchunk
    obtain ⟨k, hk, rfl⟩ := List.mem_map.mp hchunk
    rw [hlength k (List.mem_range.mp hk)]
    exact width_le
  · rw [List.pairwise_map]
    refine (List.pairwise_lt_range).imp_of_mem fun hk hl hlt => ?_
    rw [hlength _ (List.mem_range.mp hk), hlength _ (List.mem_range.mp hl)]
    exact width_anti hlt.le

/-- The chunks tile the range exactly when the number of chunks times their size fits 64 bits. -/
theorem chunk_indices_tile_iff (h : 0 < numChunks) :
    Tiles count numChunks (chunkIndices count numChunks) ↔
      numChunks.toNat * (count.toNat ⌈/⌉ numChunks.toNat) < 2 ^ 64 := by
  have hpos : 0 < numChunks.toNat := UInt64.lt_iff_toNat_lt.mp h
  refine ⟨fun htiles => ?_, tiles_of_fit hpos⟩
  by_contra hwide
  obtain ⟨n, hn⟩ := Nat.exists_eq_add_one.mpr hpos
  have hlast := htiles.last
  rw [chunk_indices_eq, hn, List.range_succ, List.map_append, List.map_singleton,
    List.getLast?_concat] at hlast
  have hend := congrArg UInt64.toNat (hlast _ rfl)
  dsimp only at hend
  rw [bound_to_nat hpos hn.ge] at hend
  -- the last product wraps around once, to less than the number of chunks
  have hlt : numChunks.toNat * (count.toNat ⌈/⌉ numChunks.toNat) <
      count.toNat + numChunks.toNat := mul_ceil_lt hpos
  have hcount : count.toNat < 2 ^ 64 := count.toNat_lt
  have hchunks : numChunks.toNat < 2 ^ 64 := numChunks.toNat_lt
  rw [hn] at hlt hwide hchunks hend
  omega

end

/-- Ten indices in four chunks. -/
theorem chunk_indices_tile_ten : Tiles 10 4 [(0, 3), (3, 6), (6, 9), (9, 10)] := by
  have hchunks : chunkIndices 10 4 = [(0, 3), (3, 6), (6, 9), (9, 10)] := rfl
  rw [← hchunks]
  exact (chunk_indices_tile_iff (by decide)).mpr (by decide)

/-- The second half of `2 ^ 64 - 1` indices ends at zero. -/
theorem two_halves_wrap :
    chunkIndices 18446744073709551615 2 = [(0, 9223372036854775808), (9223372036854775808, 0)] ∧
      ¬ Tiles 18446744073709551615 2 (chunkIndices 18446744073709551615 2) := by
  have hchunks : chunkIndices 18446744073709551615 2 =
      [(0, 9223372036854775808), (9223372036854775808, 0)] := rfl
  refine ⟨hchunks, fun htiles => ?_⟩
  have hordered := htiles.ordered (9223372036854775808, 0) (by rw [hchunks]; simp)
  exact absurd hordered (by decide)

end Rapidsmpf.Utils
