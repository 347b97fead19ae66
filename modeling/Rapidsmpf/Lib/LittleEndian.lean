import Mathlib

/-!
# Little-endian byte strings

`toBytes w n` is the `w`-byte little-endian representation of `n`, what a copy of an unsigned
integer of `w` bytes into a byte vector writes; `ofBytes` reads it back. Wider numbers are
truncated to the low `w` bytes, as the integer type would. `readAt` and `writeAt` are the copies
from and to an offset of a buffer.
-/

namespace LittleEndian

/-- The low `w` bytes of `n`, least significant first. -/
def toBytes : Nat → Nat → List UInt8
  | 0, _ => []
  | w + 1, n => UInt8.ofNat n :: toBytes w (n / 256)

/-- The number a little-endian byte string denotes. -/
def ofBytes : List UInt8 → Nat
  | [] => 0
  | b :: bs => b.toNat + 256 * ofBytes bs

@[simp] theorem length_toBytes (w n : Nat) : (toBytes w n).length = w := by
  induction w generalizing n with
  | zero => rfl
  | succ w ih => simp [toBytes, ih]

/-- Reading back a number gives it modulo the width. -/
theorem of_bytes_to_bytes (w n : Nat) : ofBytes (toBytes w n) = n % 256 ^ w := by
  induction w generalizing n with
  | zero => simp [toBytes, ofBytes, Nat.mod_one]
  | succ w ih =>
      have hbyte : (UInt8.ofNat n).toNat = n % 256 := by simp
      simp only [toBytes, ofBytes, ih, hbyte]
      rw [pow_succ', Nat.mod_mul]

/-- A number that fits is read back exactly. -/
theorem of_bytes_to_bytes_of_lt {w n : Nat} (h : n < 256 ^ w) :
    ofBytes (toBytes w n) = n := by
  rw [of_bytes_to_bytes, Nat.mod_eq_of_lt h]

/-- A byte string of length `w` denotes a number of `w` bytes. -/
theorem of_bytes_lt (bs : List UInt8) : ofBytes bs < 256 ^ bs.length := by
  induction bs with
  | nil => simp [ofBytes]
  | cons b bs ih =>
      have hb : b.toNat < 256 := b.toNat_lt
      simp only [ofBytes, List.length_cons, pow_succ']
      omega

/-- A byte string is the representation of its number. -/
theorem to_bytes_of_bytes (bs : List UInt8) : toBytes bs.length (ofBytes bs) = bs := by
  induction bs with
  | nil => rfl
  | cons b bs ih =>
      have hb : b.toNat < 256 := b.toNat_lt
      have hlow : UInt8.ofNat (b.toNat + 256 * ofBytes bs) = b := by
        rw [← UInt8.toNat_inj, UInt8.toNat_ofNat']
        omega
      have hhigh : (b.toNat + 256 * ofBytes bs) / 256 = ofBytes bs := by omega
      rw [List.length_cons, ofBytes, toBytes, hlow, hhigh, ih]

/-- The number in the `w` bytes of a message from an offset on. -/
def readAt (offset w : Nat) (msg : List UInt8) : Nat :=
  ofBytes ((msg.drop offset).take w)

theorem read_at_lt (offset w : Nat) (msg : List UInt8) : readAt offset w msg < 256 ^ w := by
  have hlt := of_bytes_lt ((msg.drop offset).take w)
  exact hlt.trans_le (Nat.pow_le_pow_right (by decide) (List.length_take_le _ _))

/-- The bytes of a field are the representation of its number. -/
theorem to_bytes_read_at {offset w : Nat} {msg : List UInt8} (h : offset + w ≤ msg.length) :
    toBytes w (readAt offset w msg) = (msg.drop offset).take w := by
  have hlength : ((msg.drop offset).take w).length = w := by
    rw [List.length_take, List.length_drop]
    omega
  have hsame := to_bytes_of_bytes ((msg.drop offset).take w)
  rw [hlength] at hsame
  exact hsame

/-- Dropping past a field. -/
theorem drop_skip (k n m : Nat) (back : List UInt8) :
    (toBytes k n ++ back).drop (k + m) = back.drop m := by
  rw [← List.drop_drop, List.drop_left' (length_toBytes k n)]

/-- The first field is read back. -/
theorem read_at_zero {w n : Nat} (h : n < 256 ^ w) (back : List UInt8) :
    readAt 0 w (toBytes w n ++ back) = n := by
  rw [readAt, List.drop_zero, List.take_left' (length_toBytes w n), of_bytes_to_bytes_of_lt h]

/-- Reading past a field. -/
theorem read_at_skip (k n offset w : Nat) (back : List UInt8) :
    readAt (k + offset) w (toBytes k n ++ back) = readAt offset w back := by
  rw [readAt, drop_skip, readAt]

/-- Reading past the beginning of a message. -/
theorem read_at_append (front back : List UInt8) (offset w : Nat) :
    readAt (front.length + offset) w (front ++ back) = readAt offset w back := by
  rw [readAt, readAt, List.drop_length_add_append]

/-- A field of a table of numbers of one width is read back. -/
theorem read_at_table {w n k : Nat} {ns : List Nat} (hn : ns[k]? = some n) (h : n < 256 ^ w)
    (back : List UInt8) : readAt (k * w) w (ns.flatMap (toBytes w) ++ back) = n := by
  induction ns generalizing k with
  | nil => cases hn
  | cons m ns ih =>
      rw [List.flatMap_cons, List.append_assoc]
      cases k with
      | zero =>
          obtain rfl : m = n := by simpa using hn
          rw [Nat.zero_mul, read_at_zero h]
      | succ k =>
          rw [Nat.succ_mul, Nat.add_comm, read_at_skip]
          exact ih hn

/-- A buffer with bytes copied over those from an offset on. -/
def writeAt (offset : Nat) (bs buffer : List UInt8) : List UInt8 :=
  buffer.take offset ++ bs ++ buffer.drop (offset + bs.length)

/-- Copying over a part of a buffer replaces it. -/
theorem write_at_append {front old bs : List UInt8} {offset : Nat} (hfront : front.length = offset)
    (hold : old.length = bs.length) (back : List UInt8) :
    writeAt offset bs (front ++ (old ++ back)) = front ++ (bs ++ back) := by
  rw [writeAt, List.take_left' hfront, ← List.append_assoc front old back,
    List.drop_left' (by rw [List.length_append, hfront, hold]), List.append_assoc]

end LittleEndian
