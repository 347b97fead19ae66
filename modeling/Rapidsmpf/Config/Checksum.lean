import Mathlib
import Rapidsmpf.Lib.CyclicRedundancy
import Rapidsmpf.Config.Serialization

/-!
# The checksum of serialized options

`crc32_compute` is a cyclic redundancy check of 32 bits that takes bytes (`crc_to_bit_vec`), and
its polynomial has the highest bit; so four bytes that change do not leave the checksum as it was
(`crc32_burst`). `burst_detected` says what this means for a buffer of serialized options: with a
burst of changes between its header and its trailer, it is refused.
-/

namespace Rapidsmpf.Config

open Fallible LittleEndian CyclicRedundancy

/-! ## The register -/

/-- The polynomial of `crc32_compute`. -/
def crcPolynomial : BitVec 32 := 0xEDB88320#32

/-- One round of the inner loop of `crc32_compute`. -/
theorem crc_shift_to_bit_vec (crc : UInt32) :
    ((crc >>> 1) ^^^ (0xEDB88320 &&& -(crc &&& 1))).toBitVec =
      shift crcPolynomial crc.toBitVec := by
  have hmask : (-(crc &&& 1)).toBitVec =
      if crc.toBitVec.getLsbD 0 then BitVec.allOnes 32 else 0 := by
    rw [UInt32.toBitVec_neg, UInt32.toBitVec_and]
    have hone : crc.toBitVec &&& (1 : UInt32).toBitVec =
        BitVec.setWidth 32 (BitVec.ofBool (crc.toBitVec.getLsbD 0)) :=
      BitVec.and_one_eq_setWidth_ofBool_getLsbD
    rw [hone]
    cases crc.toBitVec.getLsbD 0 <;> rfl
  rw [UInt32.toBitVec_xor, UInt32.toBitVec_and, hmask, shift]
  congr 1
  split
  · exact BitVec.and_allOnes
  · exact BitVec.and_zero

/-- The inner loop of `crc32_compute`. -/
theorem crc_shifts_to_bit_vec (n : Nat) (crc : UInt32) :
    ((List.range n).foldl (fun (crc : UInt32) _ =>
      let mask := -(crc &&& 1)
      (crc >>> 1) ^^^ (0xEDB88320 &&& mask)) crc).toBitVec =
      shifts crcPolynomial n crc.toBitVec := by
  induction n with
  | zero => rfl
  | succ n ih =>
      rw [List.range_succ, List.foldl_append, List.foldl_cons, List.foldl_nil,
        crc_shift_to_bit_vec, ih, Nat.add_comm n 1, shifts_add]
      rfl

/-- A byte as a symbol. -/
def symbol (byte : UInt8) : BitVec 32 := byte.toUInt32.toBitVec

theorem symbol_narrow (byte : UInt8) : Narrow 8 (symbol byte) := by
  intro i hi
  have hlt : (symbol byte).toNat < 2 ^ i :=
    calc (symbol byte).toNat = byte.toNat := by simp [symbol]
      _ < 2 ^ 8 := byte.toNat_lt
      _ ≤ 2 ^ i := Nat.pow_le_pow_right (Nat.succ_pos 1) hi
  rw [BitVec.getLsbD]
  exact Nat.testBit_lt_two_pow hlt

theorem symbol_injective : Function.Injective symbol := by
  intro a b h
  have hnat : (symbol a).toNat = (symbol b).toNat := congrArg BitVec.toNat h
  simpa [symbol, UInt8.toNat_inj] using hnat

/-- `crc32_compute` feeds the bytes to the register, and complements it. -/
theorem crc_to_bit_vec (data : Bytes) : (crc32Compute data).toBitVec =
    ~~~ feed crcPolynomial 8 (BitVec.allOnes 32) (data.map symbol) := by
  suffices h : ∀ crc : UInt32, (data.foldl (fun (crc : UInt32) byte =>
      (List.range 8).foldl (fun (crc : UInt32) _ =>
        let mask := -(crc &&& 1)
        (crc >>> 1) ^^^ (0xEDB88320 &&& mask)) (crc ^^^ byte.toUInt32)) crc).toBitVec =
      feed crcPolynomial 8 crc.toBitVec (data.map symbol) by
    rw [crc32Compute, UInt32.toBitVec_not, h]
    rfl
  induction data with
  | nil => exact fun _ => rfl
  | cons byte data ih =>
      intro crc
      rw [List.foldl_cons, ih, crc_shifts_to_bit_vec, UInt32.toBitVec_xor]
      rfl

/-- Up to four bytes that change, at one place, change the checksum. -/
theorem crc32_burst {mid mid' : Bytes} (hlength : mid.length = mid'.length)
    (hfour : mid.length ≤ 4) (hne : mid ≠ mid') (before after : Bytes) :
    crc32Compute (before ++ (mid ++ after)) ≠ crc32Compute (before ++ (mid' ++ after)) := by
  have hnarrow : ∀ bytes : Bytes, ∀ b ∈ bytes.map symbol, Narrow 8 b := by
    intro bytes b hb
    obtain ⟨byte, -, rfl⟩ := List.mem_map.mp hb
    exact symbol_narrow byte
  have hsymbols : mid.map symbol ≠ mid'.map symbol :=
    fun h => hne (List.map_injective_iff.mpr symbol_injective h)
  have hmsb : crcPolynomial.msb = true := by decide
  have hfed := feed_burst hmsb (hnarrow mid) (hnarrow mid')
    (by simpa using hlength) (by rw [List.length_map]; omega) hsymbols (BitVec.allOnes 32)
    (before.map symbol) (after.map symbol)
  intro h
  have hvec := congrArg UInt32.toBitVec h
  rw [crc_to_bit_vec, crc_to_bit_vec, BitVec.not_inj] at hvec
  simp only [List.map_append] at hvec
  exact hfed hvec

/-! ## Bursts -/

/-- The text of the exception for a wrong checksum. -/
def crcMismatch : Exception := .invalidArgument "CRC32 mismatch in serialized buffer"

/-- The two buffers differ, and only within four consecutive bytes from `start` up to `stop`. -/
structure Burst (start stop : Nat) (buffer buffer' : Bytes) : Prop where
  length : buffer'.length = buffer.length
  changed : buffer' ≠ buffer
  within : ∃ p, ∀ i, buffer'[i]? ≠ buffer[i]? → (start ≤ i ∧ i < stop) ∧ (p ≤ i ∧ i < p + 4)

/-- A burst in the middle of a buffer replaces bytes there by as many others. -/
theorem Burst.exists_split {front data back buffer' : Bytes}
    (h : Burst front.length (front.length + data.length) (front ++ (data ++ back)) buffer') :
    ∃ before mid mid' after, data = before ++ (mid ++ after) ∧
      buffer' = front ++ ((before ++ (mid' ++ after)) ++ back) ∧
      mid.length = mid'.length ∧ mid.length ≤ 4 ∧ mid ≠ mid' := by
  obtain ⟨hlength, hchanged, p, hwithin⟩ := h
  generalize hbuffer : front ++ (data ++ back) = buffer at *
  obtain ⟨i, hi⟩ : ∃ i, buffer'[i]? ≠ buffer[i]? := by
    by_contra hnone
    refine hchanged (List.ext_getElem? fun i => ?_)
    by_contra hi
    exact hnone ⟨i, hi⟩
  obtain ⟨⟨hstart, hstop⟩, hp, hp4⟩ := hwithin i hi
  -- the window, from the beginning of the data on
  obtain ⟨a, ha⟩ : ∃ a, a = p - front.length := ⟨_, rfl⟩
  obtain ⟨b, hb⟩ : ∃ b, b = min data.length (p + 4 - front.length) := ⟨_, rfl⟩
  have hab : a ≤ b ∧ b ≤ a + 4 ∧ b ≤ data.length := by omega
  have hbelow : buffer'.take (front.length + a) = front ++ data.take a := by
    have hsame : buffer'.take (front.length + a) = buffer.take (front.length + a) := by
      refine List.ext_getElem? fun j => ?_
      simp only [List.getElem?_take]
      split
      · by_contra hj
        have := hwithin j hj
        omega
      · rfl
    rw [hsame, ← hbuffer, List.take_length_add_append, List.take_append_of_le_length (by omega)]
  have habove : buffer'.drop (front.length + b) = data.drop b ++ back := by
    have hsame : buffer'.drop (front.length + b) = buffer.drop (front.length + b) := by
      refine List.ext_getElem? fun j => ?_
      simp only [List.getElem?_drop]
      by_contra hj
      have := hwithin _ hj
      omega
    rw [hsame, ← hbuffer, List.drop_length_add_append, List.drop_append_of_le_length hab.2.2]
  have hmid : (data.drop a).take (b - a) ++ data.drop b = data.drop a := by
    have hdrop : data.drop b = (data.drop a).drop (b - a) := by
      rw [List.drop_drop, Nat.add_sub_cancel' hab.1]
    rw [hdrop, List.take_append_drop]
  have hmid' : (buffer'.drop (front.length + a)).take (b - a) ++
      buffer'.drop (front.length + b) = buffer'.drop (front.length + a) := by
    have hdrop : buffer'.drop (front.length + b) =
        (buffer'.drop (front.length + a)).drop (b - a) := by
      rw [List.drop_drop, Nat.add_assoc, Nat.add_sub_cancel' hab.1]
    rw [hdrop, List.take_append_drop]
  have hdata : data = data.take a ++ ((data.drop a).take (b - a) ++ data.drop b) := by
    rw [hmid, List.take_append_drop]
  have hnew : buffer' = front ++ ((data.take a ++
      ((buffer'.drop (front.length + a)).take (b - a) ++ data.drop b)) ++ back) := by
    have hsplit := List.take_append_drop (front.length + a) buffer'
    rw [hbelow, ← hmid', habove] at hsplit
    simpa only [List.append_assoc] using hsplit.symm
  have hsize : buffer.length = front.length + (data.length + back.length) := by
    rw [← hbuffer, List.length_append, List.length_append]
  refine ⟨data.take a, (data.drop a).take (b - a),
    (buffer'.drop (front.length + a)).take (b - a), data.drop b, hdata, hnew, ?_, ?_, ?_⟩
  · simp only [List.length_take, List.length_drop]
    omega
  · rw [List.length_take]
    omega
  · intro heq
    rw [← heq, ← hdata, hbuffer] at hnew
    exact hchanged hnew

section

variable {TypeId : Type} {Val : TypeId → Type}

/-- A buffer whose checksum is the one of other strings is refused. -/
theorem deserialize_of_crc_ne {es : List (Bytes × Bytes)} (h : Sendable es) {header data' : Bytes}
    (hheader : header.length = headerSize es.length)
    (himage : image es = header ++ (dataOf es ++ toBytes 4 (crc32Compute (dataOf es)).toNat))
    (hlength : data'.length = (dataOf es).length)
    (hcrc : crc32Compute (dataOf es) ≠ crc32Compute data') :
    (Options.deserialize (header ++ (data' ++ toBytes 4 (crc32Compute (dataOf es)).toNat)) :
      Except Exception (Options Val)) = .error crcMismatch := by
  generalize hbuffer :
    header ++ (data' ++ toBytes 4 (crc32Compute (dataOf es)).toNat) = buffer
  have hsize : buffer.length = headerSize es.length + (dataOf es).length + crc32Size := by
    rw [← hbuffer]
    simp only [List.length_append, hheader, hlength, length_toBytes, crc32Size]
    omega
  have himageSize := length_image es
  have hfront : preludeSize + 8 ≤ header.length := by
    rw [hheader, headerSize]
    omega
  -- the header is the one of the image
  have htake : ∀ n, n ≤ header.length → buffer.take n = (image es).take n := by
    intro n hn
    rw [← hbuffer, himage, List.take_append_of_le_length hn, List.take_append_of_le_length hn]
  have hat : ∀ i, i < header.length → buffer[i]? = (image es)[i]? := by
    intro i hi
    rw [← hbuffer, himage, List.getElem?_append_left hi, List.getElem?_append_left hi]
  have hmagic : buffer.take 4 = magic := htake 4 (by simp only [preludeSize] at hfront; omega)
  have hversion : buffer.getD 4 0 = formatVersion := by
    rw [List.getD_eq_getElem?_getD, hat 4 (by simp only [preludeSize] at hfront; omega)]
    rfl
  have hflags : buffer.getD 5 0 = flagCrcPresent := by
    rw [List.getD_eq_getElem?_getD, hat 5 (by simp only [preludeSize] at hfront; omega)]
    rfl
  have hcount : readAt preludeSize 8 buffer = es.length := by
    rw [← read_count h, readAt, readAt, List.take_drop, htake _ hfront, ← List.take_drop]
  have hvalidate : validateCrcAndGetDataLimit buffer (headerSize es.length) flagCrcPresent =
      .error crcMismatch := by
    have hpos : buffer.length - crc32Size = headerSize es.length + (dataOf es).length := by
      rw [hsize, Nat.add_sub_cancel]
    have hdata : (buffer.drop (headerSize es.length)).take (dataOf es).length = data' := by
      rw [← hbuffer, List.drop_left' hheader, List.take_left' hlength]
    have htrailer : readAt (headerSize es.length + (dataOf es).length) 4 buffer =
        (crc32Compute (dataOf es)).toNat := by
      have hlt : (crc32Compute (dataOf es)).toNat < 256 ^ 4 := UInt32.toNat_lt _
      have hread := read_at_append (header ++ data')
        (toBytes 4 (crc32Compute (dataOf es)).toNat) 0 4
      rw [List.length_append, hheader, hlength, Nat.add_zero, List.append_assoc, hbuffer] at hread
      rw [hread, ← List.append_nil (toBytes 4 _), read_at_zero hlt]
    rw [validateCrcAndGetDataLimit, if_pos (by decide), expects_bind (by omega)]
    simp only [hpos, Nat.add_sub_cancel_left, hdata]
    rw [expects_bind_of_not]
    · rfl
    · rw [htrailer]
      exact fun heq => hcrc (UInt32.toNat_inj.mp heq)
  simp only [Options.deserialize, hmagic, hversion, hflags, hcount]
  rw [expects_bind (by omega), expects_bind (by rw [hsize, ← himageSize]; exact h.total),
    expects_bind trivial, expects_bind trivial, expects_bind h.count, expects_bind (by omega),
    expects_bind h.count, hvalidate]
  rfl

/-- A buffer of serialized options with a burst of changes between header and trailer is refused,
for its checksum. -/
theorem burst_detected {o : Options Val} {buffer buffer' : Bytes} (h : o.serialize = .ok buffer)
    (hburst : Burst (headerSize o.entries.length) (buffer.length - crc32Size) buffer buffer') :
    (Options.deserialize buffer' : Except Exception (Options Val)) = .error crcMismatch := by
  obtain ⟨hs, rfl⟩ := serialize_eq_ok.mp h
  have hcount : o.entries.length = (sortedStrings o).length := by
    rw [(sorted_strings_perm o).length_eq, Options.getStrings, List.length_map]
  obtain ⟨header, hheader, himage⟩ := image_eq (sortedStrings o)
  rw [hcount, length_image, Nat.add_sub_cancel, ← hheader, himage] at hburst
  obtain ⟨before, mid, mid', after, hdata, rfl, hlength, hfour, hne⟩ := hburst.exists_split
  refine deserialize_of_crc_ne (sendable_sorted hs) hheader himage ?_ ?_
  · rw [hdata]
    simp only [List.length_append, hlength]
  · rw [hdata]
    exact crc32_burst hlength hfour hne before after

end

/-- The option `log`, the first letter of which changes on the way. -/
theorem burst_detected_log : ∃ buffer, logOption.serialize = .ok buffer ∧
    (Options.deserialize (buffer.set 32 107) : Except Exception (Options Numbers)) =
      .error crcMismatch := by
  refine ⟨_, rfl, burst_detected (o := logOption) rfl ⟨List.length_set, by decide, 32, ?_⟩⟩
  intro i hi
  obtain rfl : i = 32 := by
    by_contra hne
    exact hi (List.getElem?_set_ne (Ne.symm hne))
  decide

end Rapidsmpf.Config
