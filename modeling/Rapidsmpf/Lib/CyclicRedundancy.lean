import Mathlib

/-!
# Cyclic redundancy checks

A register of `w` bits that is shifted right, bit by bit, and takes a polynomial in whenever a one
falls out. Symbols of `k` bits are added to it without carry, each followed by `k` shifts. The
shift is linear (`shift_xor`), and injective if the polynomial has its highest bit
(`shift_injective`); so a burst of symbols no longer than the register never goes unnoticed
(`feed_burst`), however many symbols precede and follow it.
-/

namespace CyclicRedundancy

variable {w : Nat} {poly : BitVec w}

/-! ## Shifting the register -/

/-- One shift. -/
def shift (poly c : BitVec w) : BitVec w := (c >>> 1) ^^^ (if c.getLsbD 0 then poly else 0)

theorem shift_xor (a b : BitVec w) : shift poly (a ^^^ b) = shift poly a ^^^ shift poly b := by
  have hpart : (if (a ^^^ b).getLsbD 0 then poly else 0) =
      (if a.getLsbD 0 then poly else 0) ^^^ (if b.getLsbD 0 then poly else 0) := by
    rw [BitVec.getLsbD_xor]
    cases a.getLsbD 0 <;> cases b.getLsbD 0 <;> simp
  rw [shift, hpart, BitVec.ushiftRight_xor_distrib, shift, shift]
  ac_rfl

/-- Without a one to fall out, a shift only moves the bits. -/
theorem shift_of_low_clear {c : BitVec w} (h : c.getLsbD 0 = false) : shift poly c = c >>> 1 := by
  simp [shift, h]

/-- The polynomial stays visible at the highest bit. -/
theorem eq_zero_of_shift (hpoly : poly.msb = true) {c : BitVec w} (h : shift poly c = 0) :
    c = 0 := by
  have hlow : c.getLsbD 0 = false := by
    by_contra hone
    rw [Bool.not_eq_false] at hone
    have hmoved : c >>> 1 = poly := by
      rw [shift, if_pos hone] at h
      exact BitVec.xor_eq_zero_iff.mp h
    rw [← hmoved, BitVec.msb_eq_getLsbD_last, BitVec.getLsbD_ushiftRight] at hpoly
    rw [BitVec.getLsbD_of_ge _ _ (by omega)] at hpoly
    cases hpoly
  rw [shift_of_low_clear hlow] at h
  refine BitVec.eq_of_getLsbD_eq fun i hi => ?_
  have hclear : (0 : BitVec w).getLsbD i = false := BitVec.getLsbD_zero
  rw [hclear]
  cases i with
  | zero => exact hlow
  | succ i =>
      have hbit := congrArg (fun c : BitVec w => c.getLsbD i) h
      simpa [BitVec.getLsbD_ushiftRight, Nat.add_comm] using hbit

theorem shift_injective (hpoly : poly.msb = true) : Function.Injective (shift poly) := by
  intro a b h
  have hzero : shift poly (a ^^^ b) = 0 := by
    rw [shift_xor, h]
    exact BitVec.xor_self
  exact BitVec.xor_eq_zero_iff.mp (eq_zero_of_shift hpoly hzero)

/-- A number of shifts. -/
def shifts (poly : BitVec w) (n : Nat) : BitVec w → BitVec w := (shift poly)^[n]

theorem shifts_add (n m : Nat) (c : BitVec w) :
    shifts poly (n + m) c = shifts poly n (shifts poly m c) :=
  Function.iterate_add_apply _ n m c

theorem shifts_xor (n : Nat) (a b : BitVec w) :
    shifts poly n (a ^^^ b) = shifts poly n a ^^^ shifts poly n b := by
  induction n generalizing a b with
  | zero => rfl
  | succ n ih =>
      show shifts poly n (shift poly (a ^^^ b)) = _
      rw [shift_xor, ih]
      rfl

theorem shifts_injective (hpoly : poly.msb = true) (n : Nat) :
    Function.Injective (shifts poly n) :=
  (shift_injective hpoly).iterate n

/-- Bits below which all are clear move down unchanged. -/
theorem shifts_of_low_clear {n : Nat} {c : BitVec w} (h : ∀ i < n, c.getLsbD i = false) :
    shifts poly n c = c >>> n := by
  induction n generalizing c with
  | zero => exact (BitVec.ushiftRight_zero c).symm
  | succ n ih =>
      show shifts poly n (shift poly c) = _
      rw [shift_of_low_clear (h 0 (Nat.succ_pos n)), ih, ← BitVec.shiftRight_add, Nat.add_comm]
      intro i hi
      rw [BitVec.getLsbD_ushiftRight]
      exact h (1 + i) (by omega)

/-! ## Symbols -/

/-- The vector has no bits from `k` on. -/
def Narrow (k : Nat) (b : BitVec w) : Prop := ∀ i, k ≤ i → b.getLsbD i = false

/-- The register after a list of symbols of `k` bits. -/
def feed (poly : BitVec w) (k : Nat) (c : BitVec w) (bs : List (BitVec w)) : BitVec w :=
  bs.foldl (fun c b => shifts poly k (c ^^^ b)) c

/-- The symbols side by side, the first one lowest. -/
def pack (k : Nat) : List (BitVec w) → BitVec w
  | [] => 0
  | b :: bs => b ^^^ (pack k bs <<< k)

variable {k : Nat} {bs bs' : List (BitVec w)}

theorem pack_narrow (h : ∀ b ∈ bs, Narrow k b) : Narrow (k * bs.length) (pack k bs) := by
  induction bs with
  | nil => exact fun i _ => BitVec.getLsbD_zero
  | cons b bs ih =>
      intro i hi
      rw [List.length_cons, Nat.mul_succ] at hi
      have hrest := ih (fun b' hb' => h b' (List.mem_cons_of_mem b hb')) (i - k) (by omega)
      rw [pack, BitVec.getLsbD_xor, h b List.mem_cons_self i (by omega), BitVec.getLsbD_shiftLeft,
        hrest]
      simp

/-- Symbols that fit the register besides each other can be told from it. -/
theorem pack_injective (h : ∀ b ∈ bs, Narrow k b) (h' : ∀ b ∈ bs', Narrow k b)
    (hlength : bs.length = bs'.length) (hfits : k * bs.length ≤ w)
    (heq : pack k bs = pack k bs') : bs = bs' := by
  induction bs generalizing bs' with
  | nil => exact (List.length_eq_zero_iff.mp hlength.symm).symm
  | cons b bs ih =>
      cases bs' with
      | nil => cases hlength
      | cons b' bs' =>
          rw [List.length_cons, Nat.mul_succ] at hfits
          have hlength' := Nat.succ.inj hlength
          have hrest : ∀ c ∈ bs, Narrow k c := fun c hc => h c (List.mem_cons_of_mem b hc)
          have hrest' : ∀ c ∈ bs', Narrow k c := fun c hc => h' c (List.mem_cons_of_mem b' hc)
          have hbit : ∀ i, (pack k (b :: bs)).getLsbD i = (pack k (b' :: bs')).getLsbD i :=
            fun i => congrArg (fun c : BitVec w => c.getLsbD i) heq
          simp only [pack, BitVec.getLsbD_xor, BitVec.getLsbD_shiftLeft] at hbit
          -- the lowest bits are those of the first symbol
          obtain rfl : b = b' := by
            refine BitVec.eq_of_getLsbD_eq fun i _ => ?_
            by_cases hi : i < k
            · simpa [hi] using hbit i
            · rw [h b List.mem_cons_self i (by omega), h' b' List.mem_cons_self i (by omega)]
          have htail : pack k bs = pack k bs' := by
            refine BitVec.eq_of_getLsbD_eq fun i _ => ?_
            by_cases hi : i + k < w
            · simpa [hi] using hbit (i + k)
            · rw [pack_narrow hrest i (by omega), pack_narrow hrest' i (hlength' ▸ by omega)]
          rw [ih hrest hrest' hlength' (by omega) htail]

/-- Symbols that fit the register may be added at once, before all of the shifts. -/
theorem feed_eq_shifts (h : ∀ b ∈ bs, Narrow k b) (hfits : k * bs.length ≤ w) (c : BitVec w) :
    feed poly k c bs = shifts poly (k * bs.length) (c ^^^ pack k bs) := by
  induction bs generalizing c with
  | nil => exact (BitVec.xor_zero).symm
  | cons b bs ih =>
      rw [List.length_cons, Nat.mul_succ] at hfits
      have hrest : ∀ b' ∈ bs, Narrow k b' := fun b' hb' => h b' (List.mem_cons_of_mem b hb')
      have hdown : shifts poly k (pack k bs <<< k) = pack k bs := by
        rw [shifts_of_low_clear fun i hi => by simp [BitVec.getLsbD_shiftLeft, hi]]
        refine BitVec.eq_of_getLsbD_eq fun i _ => ?_
        rw [BitVec.getLsbD_ushiftRight, BitVec.getLsbD_shiftLeft]
        by_cases hi : k + i < w
        · simp [hi]
        · simp [pack_narrow hrest i (by omega)]
      calc feed poly k c (b :: bs) = feed poly k (shifts poly k (c ^^^ b)) bs := rfl
        _ = shifts poly (k * bs.length) (shifts poly k (c ^^^ b) ^^^ pack k bs) :=
            ih hrest (by omega) _
        _ = shifts poly (k * bs.length) (shifts poly k (c ^^^ b ^^^ (pack k bs <<< k))) := by
            rw [shifts_xor k (c ^^^ b), hdown]
        _ = shifts poly (k * (b :: bs).length) (c ^^^ pack k (b :: bs)) := by
            rw [← shifts_add, List.length_cons, Nat.mul_succ, pack, BitVec.xor_assoc]

/-- Registers that differ still do after the same symbols. -/
theorem feed_injective (hpoly : poly.msb = true) (bs : List (BitVec w)) :
    Function.Injective fun c => feed poly k c bs := by
  induction bs with
  | nil => exact fun _ _ h => h
  | cons b bs ih =>
      intro c c' h
      have hshifted : shifts poly k (c ^^^ b) = shifts poly k (c' ^^^ b) := ih h
      exact (BitVec.xor_left_inj b).mp (shifts_injective hpoly k hshifted)

/-- A burst no longer than the register changes it, whatever comes before and after. -/
theorem feed_burst (hpoly : poly.msb = true) (h : ∀ b ∈ bs, Narrow k b)
    (h' : ∀ b ∈ bs', Narrow k b) (hlength : bs.length = bs'.length) (hfits : k * bs.length ≤ w)
    (hne : bs ≠ bs') (c : BitVec w) (before after : List (BitVec w)) :
    feed poly k c (before ++ (bs ++ after)) ≠ feed poly k c (before ++ (bs' ++ after)) := by
  intro heq
  simp only [feed, List.foldl_append] at heq
  have hmid := feed_injective hpoly after heq
  change feed poly k _ bs = feed poly k _ bs' at hmid
  rw [feed_eq_shifts h hfits, feed_eq_shifts h' (hlength ▸ hfits), ← hlength] at hmid
  have hpack := (BitVec.xor_right_inj _).mp (shifts_injective hpoly _ hmid)
  exact hne (pack_injective h h' hlength hfits hpack)

end CyclicRedundancy
