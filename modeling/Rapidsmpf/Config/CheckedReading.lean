import Mathlib
import Rapidsmpf.Lib.Traced
import Rapidsmpf.Config.Serialization

/-!
# What reading options may touch

`Options::deserialize` once more, with the events that a memory checker and an overflow checker
would see: every read from the buffer, every element of a vector, and the exact result of every
computation on 64-bit numbers, whose value is taken modulo `2 ^ 64`. `deserialize_checked_refines`
says that nothing wraps around, nothing is read out of bounds, and the outcome is the one of
`Options.deserialize`. `deserialize_laid` says where the strings of the options come from.
-/

namespace Rapidsmpf.Config

open Fallible LittleEndian

/-! ## The code -/

/-- What can be seen: a read of `width` bytes of the buffer, the element `i` of a vector of a size,
a number before it is reduced to 64 bits. -/
inductive Access where
  | read (pos width : Nat)
  | element (i size : Nat)
  | compute (exact : Int)
deriving DecidableEq

/-- Code that is watched. -/
abbrev Checked (α : Type) := Traced Access Exception α

/-- Addition of 64-bit numbers. -/
def add64 (a b : Nat) : Checked Nat := do
  .note (.compute (a + b))
  pure ((a + b) % 2 ^ 64)

/-- Subtraction of 64-bit numbers. -/
def sub64 (a b : Nat) : Checked Nat := do
  .note (.compute (a - b))
  pure ((a + 2 ^ 64 - b) % 2 ^ 64)

/-- Multiplication of 64-bit numbers. -/
def mul64 (a b : Nat) : Checked Nat := do
  .note (.compute (a * b))
  pure (a * b % 2 ^ 64)

/-- A number of `w` bytes from the buffer. -/
def load (buffer : Bytes) (pos w : Nat) : Checked Nat := do
  .note (.read pos w)
  pure (readAt pos w buffer)

/-- An element of a vector. -/
def elementAt (v : List Nat) (i : Nat) : Checked Nat := do
  .note (.element i v.length)
  pure (v.getD i 0)

/-- The four bytes of the checksum, one by one. -/
def loadCrc (buffer : Bytes) (crcPos : Nat) : Checked Nat := do
  .note (.read crcPos 1)
  let pos₁ ← add64 crcPos 1
  .note (.read pos₁ 1)
  let pos₂ ← add64 crcPos 2
  .note (.read pos₂ 1)
  let pos₃ ← add64 crcPos 3
  .note (.read pos₃ 1)
  pure (readAt crcPos 4 buffer)

/-- `validate_crc_and_get_data_limit`. -/
def validateCrcChecked (buffer : Bytes) (headerSize : Nat) (flags : UInt8) : Checked Nat :=
  if flags &&& flagCrcPresent ≠ 0 then do
    let least ← add64 headerSize crc32Size
    .check (least ≤ buffer.length) (.invalidArgument "buffer too small for CRC32 trailer")
    let crcPos ← sub64 buffer.length crc32Size
    let expectedCrc ← loadCrc buffer crcPos
    let size ← sub64 crcPos headerSize
    .note (.read headerSize size)
    .check (expectedCrc = (crc32Compute ((buffer.drop headerSize).take size)).toNat)
      (.invalidArgument "CRC32 mismatch in serialized buffer")
    pure crcPos
  else pure buffer.length

/-- One round of the loop that reads the offsets. -/
def readOffsets (buffer : Bytes) (count i : Nat) (offsets : List Nat × List Nat) :
    Checked (List Nat × List Nat) := do
  .note (.element i count)
  let twice ← mul64 2 i
  let index ← add64 1 twice
  let bytes ← mul64 index 8
  let pos ← add64 preludeSize bytes
  let keyOffset ← load buffer pos 8
  .note (.element i count)
  let twice ← mul64 2 i
  let index ← add64 1 twice
  let index ← add64 index 1
  let bytes ← mul64 index 8
  let pos ← add64 preludeSize bytes
  let valueOffset ← load buffer pos 8
  pure (offsets.1 ++ [keyOffset], offsets.2 ++ [valueOffset])

/-- `next_key_offset`. -/
def nextKeyOffsetOf (keyOffsets : List Nat) (count dataLimit next : Nat) : Checked Nat :=
  if next < count then elementAt keyOffsets next else pure dataLimit

/-- The strings of one option. -/
def readEntryChecked (buffer : Bytes) (keyOffsets valueOffsets : List Nat)
    (count headerSize dataLimit i : Nat) : Checked (Bytes × Bytes) := do
  let keyOffset ← elementAt keyOffsets i
  let valueOffset ← elementAt valueOffsets i
  .check (headerSize ≤ keyOffset ∧ headerSize ≤ valueOffset)
    (.outOfRange "offsets must point to data region")
  .check (keyOffset < valueOffset) (.outOfRange "key offset must be less than value offset")
  let next ← add64 i 1
  let nextKeyOffset ← nextKeyOffsetOf keyOffsets count dataLimit next
  .check (valueOffset ≤ nextKeyOffset) (.outOfRange "value data overlaps next key region")
  .check (keyOffset < dataLimit ∧ valueOffset ≤ dataLimit)
    (.outOfRange "offsets exceed buffer size")
  let keyLen ← sub64 valueOffset keyOffset
  let valueLen ← sub64 nextKeyOffset valueOffset
  .check (keyLen ≤ maxKeyLen) (.invalidArgument "key length exceeds maximum allowed size")
  .check (valueLen ≤ maxValueLen) (.invalidArgument "value length exceeds maximum allowed size")
  let keyEnd ← add64 keyOffset keyLen
  .check (keyEnd ≤ dataLimit) (.outOfRange "Deserialization offset exceeds buffer size")
  let valueEnd ← add64 valueOffset valueLen
  .check (valueEnd ≤ dataLimit) (.outOfRange "Deserialization offset exceeds buffer size")
  .note (.read keyOffset keyLen)
  .note (.read valueOffset valueLen)
  pure ((buffer.drop keyOffset).take keyLen, (buffer.drop valueOffset).take valueLen)

/-- `Options::deserialize`. -/
def Options.deserializeChecked {TypeId : Type} {Val : TypeId → Type} (buffer : Bytes) :
    Traced Access Exception (Options Val) := do
  let totalSize := buffer.length
  .check (preludeSize + 8 ≤ totalSize)
    (.invalidArgument "buffer is too small to contain prelude and count")
  .check (totalSize ≤ maxTotalSize)
    (.invalidArgument "serialized buffer exceeds maximum allowed size")
  .note (.read 0 4)
  .check (buffer.take 4 = magic) (.invalidArgument "buffer does not contain valid MAGIC")
  .note (.read 4 1)
  let version := buffer.getD 4 0
  .note (.read 5 1)
  let flags := buffer.getD 5 0
  .check (version = formatVersion)
    (.invalidArgument "unsupported Options serialization version")
  let count ← load buffer preludeSize 8
  .check (count ≤ maxOptions) (.invalidArgument "too many options to deserialize")
  let pairs ← mul64 count 2
  let table ← mul64 pairs 8
  let dataHeaderSize ← add64 8 table
  let headerSize ← add64 preludeSize dataHeaderSize
  .check (headerSize ≤ totalSize)
    (.invalidArgument "buffer is too small for header with declared count")
  .check (count ≤ maxOptions) (.invalidArgument "too many options in serialized buffer")
  let dataLimit ← validateCrcChecked buffer headerSize flags
  let offsets ← Traced.loop (readOffsets buffer count) count 0 ([], [])
  let ret ← Traced.loop (fun i ret => do
    let e ← readEntryChecked buffer offsets.1 offsets.2 count headerSize dataLimit i
    pure (emplaceString ret e)) count 0 []
  .ofExcept (ofStrings ret)

/-! ## The same result as without events -/

/-- The event stays within the buffer, within the vector, within 64 bits. -/
def Good (buffer : Bytes) : Access → Prop
  | .read pos width => pos + width ≤ buffer.length
  | .element i size => i < size
  | .compute exact => 0 ≤ exact ∧ exact < 2 ^ 64

/-- A `std::invalid_argument` or a `std::out_of_range`. -/
def Declared : Exception → Prop
  | .invalidArgument _ | .optionAlreadySet _ | .outOfRange _ => True
  | .ofFactory _ => False

section

variable {buffer : Bytes} {α β : Type} {X : Exception → Prop}

/-- Nothing is out of bounds, and the outcome is the one of another computation. -/
abbrev Refines (buffer : Bytes) (m : Checked α) (r : Except Exception α) : Prop :=
  m.Ensures (Good buffer) (fun x => r = .error x ∧ Declared x) fun a => r = .ok a

theorem refines_pure (a : α) : Refines buffer (pure a) (pure a) := .pure rfl

theorem refines_check {p q : Prop} [Decidable p] [Decidable q] {x : Exception}
    {f : PUnit → Checked α} {g : Unit → Except Exception α} (hpq : p ↔ q) (hx : Declared x)
    (hf : p → Refines buffer (f ⟨⟩) (g ())) :
    Refines buffer (.check p x >>= f) (expects q x >>= g) := by
  refine .check_bind (fun hp => ⟨expects_bind_of_not (hpq.not.mp hp), hx⟩) fun hp => ?_
  rw [expects_bind (hpq.mp hp)]
  exact hf hp

theorem refines_bind {m : Checked α} {r : Except Exception α} {f : α → Checked β}
    {g : α → Except Exception β} (hm : Refines buffer m r)
    (hf : ∀ a, r = .ok a → Refines buffer (f a) (g a)) : Refines buffer (m >>= f) (r >>= g) := by
  refine .bind (P := fun a => r = .ok a) (hm.mono_throws ?_) fun a ha => ?_
  · rintro x ⟨rfl, hx⟩
    exact ⟨rfl, hx⟩
  · rw [ha]
    exact hf a ha

/-- A loop that is watched. -/
theorem refines_loop {step : Nat → β → Checked β} {f : β → Nat → Except Exception β} {n i : Nat}
    (h : ∀ j b, j < i + n → Refines buffer (step j b) (f b j)) (b : β) :
    Refines buffer (Traced.loop step n i b) ((List.range' i n).foldlM f b) := by
  induction n generalizing i b with
  | zero => exact refines_pure b
  | succ n ih =>
      rw [List.range'_succ, List.foldlM_cons]
      exact refines_bind (h i b (by omega)) fun b' _ => ih (fun j c hj => h j c (by omega)) b'

theorem add64_ensures {a b : Nat} (h : a + b < 2 ^ 64) :
    (add64 a b).Ensures (Good buffer) X (· = a + b) := by
  refine .note_bind ?_ (.pure (Nat.mod_eq_of_lt h))
  show 0 ≤ (a + b : Int) ∧ (a + b : Int) < 2 ^ 64
  omega

theorem sub64_ensures {a b : Nat} (hba : b ≤ a) (ha : a < 2 ^ 64) :
    (sub64 a b).Ensures (Good buffer) X (· = a - b) := by
  refine .note_bind ?_ (.pure ?_)
  · show 0 ≤ (a - b : Int) ∧ (a - b : Int) < 2 ^ 64
    omega
  · have hsplit : a + 2 ^ 64 - b = (a - b) + 2 ^ 64 := by omega
    rw [hsplit, Nat.add_mod_right, Nat.mod_eq_of_lt (by omega)]

theorem mul64_ensures {a b : Nat} (h : a * b < 2 ^ 64) :
    (mul64 a b).Ensures (Good buffer) X (· = a * b) := by
  refine .note_bind ?_ (.pure (Nat.mod_eq_of_lt h))
  show 0 ≤ (a * b : Int) ∧ (a * b : Int) < 2 ^ 64
  have hcast : ((a * b : Nat) : Int) = (a : Int) * b := Nat.cast_mul a b
  omega

theorem load_ensures {pos w : Nat} (h : pos + w ≤ buffer.length) :
    (load buffer pos w).Ensures (Good buffer) X (· = readAt pos w buffer) :=
  .note_bind h (.pure rfl)

theorem element_at_ensures {v : List Nat} {i : Nat} (h : i < v.length) :
    (elementAt v i).Ensures (Good buffer) X (· = v.getD i 0) :=
  .note_bind h (.pure rfl)

theorem load_crc_ensures {crcPos : Nat} (h : crcPos + 4 ≤ buffer.length)
    (hsize : buffer.length ≤ maxTotalSize) :
    (loadCrc buffer crcPos).Ensures (Good buffer) X (· = readAt crcPos 4 buffer) := by
  rw [maxTotalSize] at hsize
  refine .note_bind (show crcPos + 1 ≤ _ by omega) ?_
  refine .known_bind (add64_ensures (by omega)) (.note_bind (show crcPos + 1 + 1 ≤ _ by omega) ?_)
  refine .known_bind (add64_ensures (by omega)) (.note_bind (show crcPos + 2 + 1 ≤ _ by omega) ?_)
  refine .known_bind (add64_ensures (by omega)) (.note_bind (show crcPos + 3 + 1 ≤ _ by omega) ?_)
  exact .pure rfl

theorem validate_crc_refines {header : Nat} {flags : UInt8} (hheader : header ≤ buffer.length)
    (hsize : buffer.length ≤ maxTotalSize) :
    Refines buffer (validateCrcChecked buffer header flags)
      (validateCrcAndGetDataLimit buffer header flags) := by
  have hmax : maxTotalSize = 67108864 := rfl
  have hcrc : crc32Size = 4 := rfl
  rw [validateCrcChecked, validateCrcAndGetDataLimit]
  split
  · refine .known_bind (add64_ensures (by omega)) ?_
    refine refines_check .rfl trivial fun hleast => ?_
    refine .known_bind (sub64_ensures (by omega) (by omega)) ?_
    refine .known_bind (load_crc_ensures (by omega) hsize) ?_
    refine .known_bind (sub64_ensures (by omega) (by omega)) ?_
    refine .note_bind (show header + (buffer.length - crc32Size - header) ≤ _ by omega) ?_
    exact refines_check .rfl trivial fun _ => refines_pure _
  · exact refines_pure _

/-- The data ends where the checksum begins, if there is one. -/
theorem validate_crc_eq_ok {header dataLimit : Nat} {flags : UInt8}
    (h : validateCrcAndGetDataLimit buffer header flags = .ok dataLimit) :
    dataLimit = if flags &&& flagCrcPresent ≠ 0 then buffer.length - crc32Size
      else buffer.length := by
  rw [validateCrcAndGetDataLimit] at h
  split at h
  · next hflag =>
      simp only [bind_eq_ok, expects_eq_ok] at h
      obtain ⟨_, _, _, _, h⟩ := h
      rw [if_pos hflag, ← pure_eq_ok.mp h]
  · next hflag => rw [if_neg hflag, ← pure_eq_ok.mp h]

theorem data_limit_le {header dataLimit : Nat} {flags : UInt8}
    (h : validateCrcAndGetDataLimit buffer header flags = .ok dataLimit) :
    dataLimit ≤ buffer.length := by
  rw [validate_crc_eq_ok h]
  split
  · exact Nat.sub_le _ _
  · exact le_rfl

/-- The offsets of the options, up to one of them. -/
def offsetsBelow (buffer : Bytes) (n : Nat) : List Nat × List Nat :=
  ((List.range n).map (keyOffsetAt buffer), (List.range n).map (valueOffsetAt buffer))

theorem read_offsets_ensures {count i : Nat} (hi : i < count)
    (hheader : headerSize count ≤ buffer.length) (hsize : buffer.length ≤ maxTotalSize) :
    (readOffsets buffer count i (offsetsBelow buffer i)).Ensures (Good buffer) X
      (· = offsetsBelow buffer (i + 1)) := by
  simp only [headerSize, preludeSize, maxTotalSize] at hheader hsize
  have hprelude : preludeSize = 8 := rfl
  refine .note_bind hi ?_
  refine .known_bind (mul64_ensures (by omega)) (.known_bind (add64_ensures (by omega)) ?_)
  refine .known_bind (mul64_ensures (by omega)) (.known_bind (add64_ensures (by omega)) ?_)
  refine .known_bind (load_ensures (by omega)) (.note_bind hi ?_)
  refine .known_bind (mul64_ensures (by omega)) (.known_bind (add64_ensures (by omega)) ?_)
  refine .known_bind (add64_ensures (by omega)) (.known_bind (mul64_ensures (by omega)) ?_)
  refine .known_bind (add64_ensures (by omega)) (.known_bind (load_ensures (by omega)) (.pure ?_))
  simp only [offsetsBelow, List.range_succ, List.map_append, List.map_singleton]
  rfl

theorem get_offsets_below {f : Nat → Nat} {i n : Nat} (h : i < n) :
    ((List.range n).map f).getD i 0 = f i := by
  simp [List.getD_eq_getElem?_getD, h]

/-- The offset of the next key, if there is one. -/
theorem next_offset_ensures {count dataLimit i : Nat} :
    (nextKeyOffsetOf ((List.range count).map (keyOffsetAt buffer)) count dataLimit (i + 1)).Ensures
      (Good buffer) X (· = if i + 1 < count then keyOffsetAt buffer (i + 1) else dataLimit) := by
  rw [nextKeyOffsetOf]
  split
  · next hi =>
      rw [← get_offsets_below (f := keyOffsetAt buffer) hi]
      exact element_at_ensures (by simpa using hi)
  · exact .pure rfl

/-- The checks of one option, in their order, keep all that follows them in bounds. -/
theorem read_entry_refines {count dataLimit i : Nat} (hi : i < count)
    (hcount : count ≤ maxOptions) (hlimit : dataLimit ≤ buffer.length)
    (hsize : buffer.length ≤ maxTotalSize) :
    Refines buffer
      (readEntryChecked buffer (offsetsBelow buffer count).1 (offsetsBelow buffer count).2 count
        (headerSize count) dataLimit i)
      (readEntry buffer count (headerSize count) dataLimit i) := by
  have hmax : maxTotalSize = 67108864 := rfl
  have hoptions : maxOptions = 65536 := rfl
  refine .known_bind (element_at_ensures (by simpa [offsetsBelow] using hi)) ?_
  refine .known_bind (element_at_ensures (by simpa [offsetsBelow] using hi)) ?_
  simp only [offsetsBelow, get_offsets_below hi]
  have hvalueOffset : valueOffsetAt buffer i < 256 ^ 8 := read_at_lt _ _ _
  have hnextOffset :
      (if i + 1 < count then keyOffsetAt buffer (i + 1) else dataLimit) < 256 ^ 8 := by
    split
    · exact read_at_lt _ _ _
    · omega
  refine refines_check .rfl trivial fun hregion => ?_
  refine refines_check .rfl trivial fun hkey => ?_
  refine .known_bind (add64_ensures (by omega)) (.known_bind next_offset_ensures ?_)
  -- the next offset is bounded by its width only: nothing has been checked of it yet
  generalize (if i + 1 < count then keyOffsetAt buffer (i + 1) else dataLimit) = next at *
  generalize keyOffsetAt buffer i = keyOffset at *
  generalize valueOffsetAt buffer i = valueOffset at *
  refine refines_check .rfl trivial fun hnext => ?_
  refine refines_check .rfl trivial fun hdata => ?_
  refine .known_bind (sub64_ensures (by omega) (by omega)) ?_
  refine .known_bind (sub64_ensures (by omega) (by omega)) ?_
  refine refines_check .rfl trivial fun _ => refines_check .rfl trivial fun _ => ?_
  refine .known_bind (add64_ensures (by omega)) ?_
  -- the key ends where the value begins, which has been checked
  refine .check_bind (fun hend => absurd (show _ ≤ dataLimit by omega) hend) fun _ => ?_
  refine .known_bind (add64_ensures (by omega)) ?_
  refine refines_check (by omega) trivial fun hend => ?_
  refine .note_bind (show keyOffset + (valueOffset - keyOffset) ≤ _ by omega) ?_
  exact .note_bind (show valueOffset + (next - valueOffset) ≤ _ by omega) (refines_pure _)

end

section

variable {TypeId : Type} {Val : TypeId → Type}

/-- Only a repeated key keeps strings from being options. -/
theorem of_strings_declared {options : List (Bytes × Bytes)} {x : Exception}
    (h : (Options.ofStrings options : Except Exception (Options Val)) = .error x) :
    Declared x := by
  obtain ⟨o, e, -, hthrow⟩ := foldlM_error h
  rw [Options.place] at hthrow
  split at hthrow
  split at hthrow
  · cases hthrow
  · cases hthrow
    trivial

/-- `deserializeChecked` ends as `deserialize` does, and nothing on its way is out of bounds. -/
theorem deserialize_checked_refines (buffer : Bytes) :
    Refines buffer (Options.deserializeChecked buffer : Checked (Options Val))
      (Options.deserialize buffer) := by
  have hprelude : preludeSize = 8 := rfl
  have hmax : maxTotalSize = 67108864 := rfl
  have hoptions : maxOptions = 65536 := rfl
  refine refines_check .rfl trivial fun hleast => ?_
  refine refines_check .rfl trivial fun hsize => ?_
  refine .note_bind (show 0 + 4 ≤ buffer.length by omega) ?_
  refine refines_check .rfl trivial fun _ => ?_
  refine .note_bind (show 4 + 1 ≤ buffer.length by omega) ?_
  refine .note_bind (show 5 + 1 ≤ buffer.length by omega) ?_
  refine refines_check .rfl trivial fun _ => ?_
  refine .known_bind (load_ensures hleast) ?_
  refine refines_check .rfl trivial fun hcount => ?_
  dsimp only
  generalize readAt preludeSize 8 buffer = count at *
  refine .known_bind (mul64_ensures (by omega)) (.known_bind (mul64_ensures (by omega)) ?_)
  refine .known_bind (add64_ensures (by omega)) (.known_bind (add64_ensures (by omega)) ?_)
  refine refines_check .rfl trivial fun hheader => ?_
  refine refines_check .rfl trivial fun _ => ?_
  refine refines_bind (validate_crc_refines hheader hsize) fun dataLimit hlimit => ?_
  have hoffsets {X : Exception → Prop} :
      (Traced.loop (readOffsets buffer count) count 0 ([], [])).Ensures (Good buffer) X
        (· = offsetsBelow buffer (0 + count)) := by
    refine .loop (I := fun i offsets => offsets = offsetsBelow buffer i) rfl ?_
    rintro i _ - hi rfl
    exact read_offsets_ensures (by omega) hheader hsize
  refine .known_bind hoffsets ?_
  rw [Nat.zero_add, List.range_eq_range']
  refine refines_bind (refines_loop (fun i ret hi => ?_) []) fun ret _ => ?_
  · exact refines_bind (read_entry_refines (by omega) hcount (data_limit_le hlimit) hsize)
      fun e _ => refines_pure _
  · exact ⟨fun _ he => (nomatch he), fun x hx => ⟨hx, of_strings_declared hx⟩, fun _ ho => ho⟩

end

/-! ## Where the strings lie -/

/-- The places of the strings of one option: the key up to the value, the value up to its end. -/
structure EntryRange where
  key : Nat
  value : Nat
  stop : Nat

/-- The bytes of a buffer between two offsets. -/
def slice (buffer : Bytes) (start stop : Nat) : Bytes := (buffer.drop start).take (stop - start)

/-- The range of an option as the table of offsets has it. -/
def entryRange (buffer : Bytes) (count dataLimit i : Nat) : EntryRange where
  key := keyOffsetAt buffer i
  value := valueOffsetAt buffer i
  stop := if i + 1 < count then keyOffsetAt buffer (i + 1) else dataLimit

/-- The end of the strings: the checksum, if the flags announce one. -/
def dataLimitOf (buffer : Bytes) : Nat :=
  if buffer.getD 5 0 &&& flagCrcPresent ≠ 0 then buffer.length - crc32Size else buffer.length

/-- Options whose strings are those of ranges in a region of the buffer, one behind the other: each
value as it is there, each key in its normal form. -/
structure Laid {TypeId : Type} {Val : TypeId → Type} (buffer : Bytes) (header limit : Nat)
    (ranges : List EntryRange) (o : Options Val) : Prop where
  bounded : limit ≤ buffer.length
  inside : ∀ r ∈ ranges, header ≤ r.key ∧ r.key < r.value ∧ r.value ≤ r.stop ∧ r.stop ≤ limit
  ordered : ranges.Pairwise fun r r' => r.stop ≤ r'.key
  strings : ∀ e ∈ o.entries, ∃ r ∈ ranges, e =
    (normalise (slice buffer r.key r.value), .ofString (slice buffer r.value r.stop))

section

variable {TypeId : Type} {Val : TypeId → Type} {buffer : Bytes}

/-- What an option must be to be read, and what is read. -/
theorem read_entry_eq_ok {count header dataLimit i : Nat} {e : Bytes × Bytes}
    (h : readEntry buffer count header dataLimit i = .ok e) :
    let r := entryRange buffer count dataLimit i
    (header ≤ r.key ∧ r.key < r.value ∧ r.value ≤ r.stop ∧ r.stop ≤ dataLimit) ∧
      e = (slice buffer r.key r.value, slice buffer r.value r.stop) := by
  simp only [readEntry, bind_eq_ok, expects_eq_ok, pure_eq_ok] at h
  obtain ⟨-, hregion, -, hkey, -, hnext, -, hdata, -, -, -, -, -, hend, rfl⟩ := h
  refine ⟨⟨hregion.1, hkey, hnext, ?_⟩, rfl⟩
  show (if i + 1 < count then keyOffsetAt buffer (i + 1) else dataLimit) ≤ dataLimit
  omega

/-- Each key begins where the value before it ends, or behind it. -/
theorem stop_le_key {count header dataLimit : Nat}
    (h : ∀ i < count, ∃ e, readEntry buffer count header dataLimit i = .ok e) {i j : Nat}
    (hij : i < j) (hj : j < count) :
    (entryRange buffer count dataLimit i).stop ≤ (entryRange buffer count dataLimit j).key := by
  induction j, hij using Nat.le_induction with
  | base =>
      rw [entryRange, if_pos hj]
      exact le_rfl
  | succ j hij ih =>
      obtain ⟨e, he⟩ := h j (by omega)
      obtain ⟨⟨-, hkey, hnext, -⟩, -⟩ := read_entry_eq_ok he
      have hstop : (entryRange buffer count dataLimit j).stop = keyOffsetAt buffer (j + 1) := by
        rw [entryRange, if_pos hj]
      calc (entryRange buffer count dataLimit i).stop
          ≤ (entryRange buffer count dataLimit j).key := ih (by omega)
        _ ≤ (entryRange buffer count dataLimit j).stop := by omega
        _ = (entryRange buffer count dataLimit (j + 1)).key := hstop

/-- Whatever the buffer, the options that are read lie in the region behind its header. -/
theorem deserialize_laid {o : Options Val} (h : Options.deserialize buffer = .ok o) :
    let count := readAt preludeSize 8 buffer
    Laid buffer (headerSize count) (dataLimitOf buffer)
      ((List.range count).map (entryRange buffer count (dataLimitOf buffer))) o := by
  simp only [Options.deserialize, bind_eq_ok, expects_eq_ok] at h
  obtain ⟨-, -, -, -, -, -, -, -, -, -, -, -, -, -, dataLimit, hlimit, ret, hret, h⟩ := h
  obtain rfl : dataLimit = dataLimitOf buffer := validate_crc_eq_ok hlimit
  generalize readAt preludeSize 8 buffer = count at *
  have hentry : ∀ i < count,
      ∃ e, readEntry buffer count (headerSize count) (dataLimitOf buffer) i = .ok e := by
    intro i hi
    obtain ⟨c, c', hstep⟩ := foldlM_each hret i (List.mem_range.mpr hi)
    obtain ⟨e, he, -⟩ := bind_eq_ok.mp hstep
    exact ⟨e, he⟩
  refine ⟨data_limit_le hlimit, ?_, ?_, ?_⟩
  · intro r hr
    obtain ⟨i, hi, rfl⟩ := List.mem_map.mp hr
    obtain ⟨e, he⟩ := hentry i (List.mem_range.mp hi)
    exact (read_entry_eq_ok he).1
  · rw [List.pairwise_map]
    refine List.pairwise_lt_range.imp_of_mem fun hi hj hij => ?_
    exact stop_le_key hentry hij (List.mem_range.mp hj)
  · -- every string comes from a round of the loop
    have hrange : ∀ e ∈ ret, ∃ i < count,
        readEntry buffer count (headerSize count) (dataLimitOf buffer) i = .ok e := by
      refine foldlM_invariant (I := fun ret => ∀ e ∈ ret, ∃ i < count,
        readEntry buffer count (headerSize count) (dataLimitOf buffer) i = .ok e) ?_ hret
        fun e he => absurd he List.not_mem_nil
      intro i hi c c' hc hstep e he
      obtain ⟨e', he', hemplace⟩ := bind_eq_ok.mp hstep
      rw [← pure_eq_ok.mp hemplace, emplaceString] at he
      split at he
      · exact hc e he
      · rcases List.mem_append.mp he with he | he
        · exact hc e he
        · exact ⟨i, List.mem_range.mp hi, List.mem_singleton.mp he ▸ he'⟩
    intro e he
    rw [Options.of_strings_eq_ok.mp h] at he
    obtain ⟨e', he', rfl⟩ := List.mem_map.mp he
    obtain ⟨i, hi, hread⟩ := hrange e' he'
    refine ⟨_, List.mem_map_of_mem (List.mem_range.mpr hi), ?_⟩
    rw [(read_entry_eq_ok hread).2]

/-- Reading options is safe for every byte vector: it stays in bounds and in 64 bits, it throws
nothing but what is declared, and the strings of what it returns lie one behind the other between
the header of the stored count and the end of the data, at the offsets of the table. -/
theorem deserialize_checked (buffer : Bytes) :
    let watched : Checked (Options Val) := Options.deserializeChecked buffer
    let count := readAt preludeSize 8 buffer
    (∀ e ∈ watched.events, Good buffer e) ∧
      (∀ x, watched.outcome = .error x → Declared x) ∧
      ∀ o, watched.outcome = .ok o →
        Laid buffer (headerSize count) (dataLimitOf buffer)
          ((List.range count).map (entryRange buffer count (dataLimitOf buffer))) o := by
  have hrefines := @deserialize_checked_refines _ Val buffer
  refine ⟨hrefines.events, fun x hx => (hrefines.throws x hx).2, fun o ho => ?_⟩
  exact deserialize_laid (hrefines.returns o ho)

end

/-- One option without a checksum, its key in upper case. -/
def upperKey : Bytes :=
  magic ++ ([1, 0, 0, 0] ++ (toBytes 8 1 ++ (toBytes 8 32 ++ (toBytes 8 33 ++ [65, 49]))))

/-- A key that is returned need not occur in the buffer. -/
theorem upper_key_lowered :
    (∃ o : Options Numbers,
      (Options.deserializeChecked upperKey : Checked (Options Numbers)).outcome = .ok o ∧
        o.keys = [[97]]) ∧ ¬ [97] <:+: upperKey.drop (headerSize 1) :=
  ⟨⟨_, rfl, rfl⟩, by decide⟩

end Rapidsmpf.Config
