import Mathlib
import Rapidsmpf.Lib.ListFacts
import Rapidsmpf.Lib.LittleEndian
import Rapidsmpf.Config.Options

/-!
# Options on the wire

`Options::serialize` and `Options::deserialize`: a prelude, the number of options, the offsets of
every key and value in order of the keys, the strings themselves, and a checksum of these.
`image` is the buffer as the concatenation of its parts, and `serialize_eq_ok` says that the
writes of `serialize` produce it. `deserialize_image` is what `deserialize` makes of such a buffer:
an empty key is refused, and every key is normalised once more.
-/

namespace Rapidsmpf.Config

open Fallible LittleEndian

/-! ## The format -/

/-- `MAX_OPTIONS`. -/
def maxOptions : Nat := 64 * 2 ^ 10

/-- `MAX_KEY_LEN`. -/
def maxKeyLen : Nat := 4 * 2 ^ 10

/-- `MAX_VALUE_LEN`. -/
def maxValueLen : Nat := 1 * 2 ^ 20

/-- `MAX_TOTAL_SIZE`. -/
def maxTotalSize : Nat := 64 * 2 ^ 20

/-- `MAGIC`: the letters `RMPF`. -/
def magic : Bytes := [82, 77, 80, 70]

/-- `FORMAT_VERSION`. -/
def formatVersion : UInt8 := 1

/-- `FLAG_CRC_PRESENT`. -/
def flagCrcPresent : UInt8 := 1

/-- `PRELUDE_SIZE`. -/
def preludeSize : Nat := 8

/-- `CRC32_SIZE`. -/
def crc32Size : Nat := 4

/-- The end of the offsets of a number of options, where their strings begin. -/
def headerSize (count : Nat) : Nat := preludeSize + (8 + count * 2 * 8)

/-- `crc32_compute`. -/
def crc32Compute (data : Bytes) : UInt32 :=
  ~~~ data.foldl (fun crc byte => (List.range 8).foldl (fun crc _ =>
    let mask := -(crc &&& 1)
    (crc >>> 1) ^^^ (0xEDB88320 &&& mask)) (crc ^^^ byte.toUInt32)) 0xFFFFFFFF

/-- `RAPIDSMPF_EXPECTS`. -/
def expects (p : Prop) [Decidable p] (e : Exception) : Except Exception Unit :=
  if p then pure () else throw e

/-! ## Writing -/

/-- The limits on one option, and the size of the data with it. -/
def addSize {TypeId : Type} {Val : TypeId → Type} (dataSize : Nat)
    (e : Bytes × OptionValue Val) : Except Exception Nat := do
  expects (e.1.length ≤ maxKeyLen) (.invalidArgument "key length exceeds maximum allowed size")
  expects (¬ e.2.value.isSome)
    (.invalidArgument "cannot serialize already parsed (accessed) option values")
  expects (e.2.valueAsString.length ≤ maxValueLen)
    (.invalidArgument "value length exceeds maximum allowed size")
  pure (dataSize + (e.1.length + e.2.valueAsString.length))

/-- The order of the serialized options. -/
def KeyLe (a b : Bytes × Bytes) : Prop := a.1 ≤ b.1

instance : DecidableRel KeyLe := fun a b => inferInstanceAs (Decidable (a.1 ≤ b.1))

/-- The loop that writes the offsets and the strings. -/
def writeEntries : List (Bytes × Bytes) → (offsetIndex dataOffset : Nat) → Bytes → Bytes
  | [], _, _, buffer => buffer
  | (key, value) :: entries, offsetIndex, dataOffset, buffer =>
      let keyOffset := dataOffset
      let valueOffset := keyOffset + key.length
      let buffer := writeAt (preludeSize + offsetIndex * 8) (toBytes 8 keyOffset) buffer
      let buffer := writeAt (preludeSize + (offsetIndex + 1) * 8) (toBytes 8 valueOffset) buffer
      let buffer := writeAt keyOffset key buffer
      let buffer := writeAt valueOffset value buffer
      writeEntries entries (offsetIndex + 2) (valueOffset + value.length) buffer

/-- `Options::serialize`. -/
def Options.serialize {TypeId : Type} {Val : TypeId → Type} (o : Options Val) :
    Except Exception Bytes := do
  let count := o.entries.length
  expects (count ≤ maxOptions) (.invalidArgument "too many options to serialize")
  let headerSize := headerSize count
  let dataSize ← o.entries.foldlM addSize 0
  expects (headerSize + dataSize + crc32Size ≤ maxTotalSize)
    (.invalidArgument "serialized buffer exceeds maximum allowed size")
  let buffer := List.replicate (headerSize + dataSize + crc32Size) 0
  let buffer := writeAt 0 magic buffer
  let buffer := writeAt 4 [formatVersion, flagCrcPresent, 0, 0] buffer
  let buffer := writeAt preludeSize (toBytes 8 count) buffer
  let entries := o.getStrings.insertionSort KeyLe
  let buffer := writeEntries entries 1 headerSize buffer
  let crc := crc32Compute ((buffer.drop headerSize).take dataSize)
  pure (writeAt (headerSize + dataSize) (toBytes 4 crc.toNat) buffer)

/-! ## Reading -/

/-- `validate_crc_and_get_data_limit`. -/
def validateCrcAndGetDataLimit (buffer : Bytes) (headerSize : Nat) (flags : UInt8) :
    Except Exception Nat :=
  if flags &&& flagCrcPresent ≠ 0 then do
    expects (headerSize + crc32Size ≤ buffer.length)
      (.invalidArgument "buffer too small for CRC32 trailer")
    let crcPos := buffer.length - crc32Size
    expects (readAt crcPos 4 buffer =
        (crc32Compute ((buffer.drop headerSize).take (crcPos - headerSize))).toNat)
      (.invalidArgument "CRC32 mismatch in serialized buffer")
    pure crcPos
  else pure buffer.length

/-- `key_offsets`. -/
def keyOffsetAt (buffer : Bytes) (i : Nat) : Nat := readAt (preludeSize + (1 + 2 * i) * 8) 8 buffer

/-- `value_offsets`. -/
def valueOffsetAt (buffer : Bytes) (i : Nat) : Nat :=
  readAt (preludeSize + (1 + 2 * i + 1) * 8) 8 buffer

/-- The strings of one option. -/
def readEntry (buffer : Bytes) (count headerSize dataLimit i : Nat) :
    Except Exception (Bytes × Bytes) := do
  let keyOffset := keyOffsetAt buffer i
  let valueOffset := valueOffsetAt buffer i
  expects (headerSize ≤ keyOffset ∧ headerSize ≤ valueOffset)
    (.outOfRange "offsets must point to data region")
  expects (keyOffset < valueOffset) (.outOfRange "key offset must be less than value offset")
  let nextKeyOffset := if i + 1 < count then keyOffsetAt buffer (i + 1) else dataLimit
  expects (valueOffset ≤ nextKeyOffset) (.outOfRange "value data overlaps next key region")
  expects (keyOffset < dataLimit ∧ valueOffset ≤ dataLimit)
    (.outOfRange "offsets exceed buffer size")
  let keyLen := valueOffset - keyOffset
  let valueLen := nextKeyOffset - valueOffset
  expects (keyLen ≤ maxKeyLen) (.invalidArgument "key length exceeds maximum allowed size")
  expects (valueLen ≤ maxValueLen) (.invalidArgument "value length exceeds maximum allowed size")
  expects (¬ (dataLimit < keyOffset + keyLen ∨ dataLimit < valueOffset + valueLen))
    (.outOfRange "Deserialization offset exceeds buffer size")
  pure ((buffer.drop keyOffset).take keyLen, (buffer.drop valueOffset).take valueLen)

/-- `emplace` of the map of strings. -/
def emplaceString (ret : List (Bytes × Bytes)) (e : Bytes × Bytes) : List (Bytes × Bytes) :=
  if e.1 ∈ ret.map Prod.fst then ret else ret ++ [e]

/-- `Options::deserialize`. -/
def Options.deserialize {TypeId : Type} {Val : TypeId → Type} (buffer : Bytes) :
    Except Exception (Options Val) := do
  let totalSize := buffer.length
  expects (preludeSize + 8 ≤ totalSize)
    (.invalidArgument "buffer is too small to contain prelude and count")
  expects (totalSize ≤ maxTotalSize)
    (.invalidArgument "serialized buffer exceeds maximum allowed size")
  expects (buffer.take 4 = magic) (.invalidArgument "buffer does not contain valid MAGIC")
  let version := buffer.getD 4 0
  let flags := buffer.getD 5 0
  expects (version = formatVersion) (.invalidArgument "unsupported Options serialization version")
  let count := readAt preludeSize 8 buffer
  expects (count ≤ maxOptions) (.invalidArgument "too many options to deserialize")
  let headerSize := headerSize count
  expects (headerSize ≤ totalSize)
    (.invalidArgument "buffer is too small for header with declared count")
  expects (count ≤ maxOptions) (.invalidArgument "too many options in serialized buffer")
  let dataLimit ← validateCrcAndGetDataLimit buffer headerSize flags
  let ret ← (List.range count).foldlM (fun ret i => do
    let e ← readEntry buffer count headerSize dataLimit i
    pure (emplaceString ret e)) []
  ofStrings ret

theorem expects_eq_ok {p : Prop} [Decidable p] {e : Exception} {u : Unit} :
    expects p e = .ok u ↔ p := by
  by_cases hp : p <;> simp [expects, hp, pure, Except.pure, throw, throwThe, MonadExceptOf.throw]

/-- A check that passes is skipped. -/
theorem expects_bind {α : Type} {p : Prop} [Decidable p] {e : Exception}
    {f : Unit → Except Exception α} (hp : p) : (expects p e >>= f) = f () := by
  rw [expects, if_pos hp]
  rfl

/-- A check that does not pass throws. -/
theorem expects_bind_of_not {α : Type} {p : Prop} [Decidable p] {e : Exception}
    {f : Unit → Except Exception α} (hp : ¬ p) : (expects p e >>= f) = .error e := by
  rw [expects, if_neg hp]
  rfl

/-! ## The buffer -/

/-- The strings of the options, one after the other. -/
def dataOf (es : List (Bytes × Bytes)) : Bytes := es.flatMap fun e => e.1 ++ e.2

/-- The offsets of the keys and values of options whose strings begin at an offset. -/
def offsetsFrom : Nat → List (Bytes × Bytes) → List Nat
  | _, [] => []
  | dataOffset, (key, value) :: es =>
      dataOffset :: (dataOffset + key.length) ::
        offsetsFrom (dataOffset + key.length + value.length) es

/-- The serialized form of options in order of their keys. -/
def image (es : List (Bytes × Bytes)) : Bytes :=
  magic ++ ([formatVersion, flagCrcPresent, 0, 0] ++
    ((es.length :: offsetsFrom (headerSize es.length) es).flatMap (toBytes 8) ++
      (dataOf es ++ toBytes 4 (crc32Compute (dataOf es)).toNat)))

theorem length_offsets_from (d : Nat) (es : List (Bytes × Bytes)) :
    (offsetsFrom d es).length = 2 * es.length := by
  induction es generalizing d with
  | nil => rfl
  | cons e es ih =>
      simp only [offsetsFrom, List.length_cons, ih]
      omega

theorem length_table (ns : List Nat) : (ns.flatMap (toBytes 8)).length = ns.length * 8 := by
  simp [List.length_flatMap]

/-- The loop fills in the offsets and the strings, at the places kept free for them. -/
theorem write_entries_eq {es : List (Bytes × Bytes)} {front old mid blank : Bytes}
    {offsetIndex dataOffset : Nat} (back : Bytes)
    (hfront : front.length = preludeSize + offsetIndex * 8) (hold : old.length = es.length * 16)
    (hmid : front.length + old.length + mid.length = dataOffset)
    (hblank : blank.length = (dataOf es).length) :
    writeEntries es offsetIndex dataOffset (front ++ (old ++ (mid ++ (blank ++ back)))) =
      front ++ ((offsetsFrom dataOffset es).flatMap (toBytes 8) ++
        (mid ++ (dataOf es ++ back))) := by
  induction es generalizing front old mid blank offsetIndex dataOffset with
  | nil =>
      obtain rfl : old = [] := List.length_eq_zero_iff.mp (by simpa using hold)
      obtain rfl : blank = [] := List.length_eq_zero_iff.mp (by simpa [dataOf] using hblank)
      rfl
  | cons e es ih =>
      obtain ⟨key, value⟩ := e
      obtain ⟨old₁, old', rfl, hold₁, hold'⟩ :=
        ListFacts.exists_append_of_length (l := old) (m := 8) (n := 8 + es.length * 16)
          (by rw [hold, List.length_cons]; omega)
      obtain ⟨old₂, old, rfl, hold₂, hold⟩ := ListFacts.exists_append_of_length hold'
      obtain ⟨blank₁, blank', rfl, hblank₁, hblank'⟩ :=
        ListFacts.exists_append_of_length (l := blank) (m := key.length)
          (n := value.length + (dataOf es).length) (by rw [hblank]; simp [dataOf])
      obtain ⟨blank₂, blank, rfl, hblank₂, hblank⟩ := ListFacts.exists_append_of_length hblank'
      simp only [List.length_append, hold₁, hold₂, hold] at hmid
      simp only [writeEntries, List.append_assoc]
      -- the four writes, each behind what is final before it
      rw [write_at_append hfront (by rw [hold₁, length_toBytes]),
        ← List.append_assoc front,
        write_at_append (by rw [List.length_append, length_toBytes, hfront]; omega)
          (by rw [hold₂, length_toBytes]),
        ← List.append_assoc _ (toBytes 8 (dataOffset + key.length)),
        ← List.append_assoc _ old, ← List.append_assoc _ mid,
        write_at_append (by simp only [List.length_append, length_toBytes, hold]; omega) hblank₁,
        ← List.append_assoc _ key,
        write_at_append (by simp only [List.length_append, length_toBytes, hold]; omega) hblank₂]
      have hrest := @ih (front ++ toBytes 8 dataOffset ++ toBytes 8 (dataOffset + key.length)) old
        (mid ++ key ++ value) blank (offsetIndex + 2) (dataOffset + key.length + value.length)
        (by simp only [List.length_append, length_toBytes, hfront]; omega) hold
        (by simp only [List.length_append, length_toBytes, hold]; omega) hblank
      simp only [List.append_assoc] at hrest ⊢
      rw [hrest]
      simp [offsetsFrom, dataOf]

/-- The writes of `serialize` produce the image of the entries. -/
theorem written_eq_image (es : List (Bytes × Bytes)) :
    let header := headerSize es.length
    let size := (dataOf es).length
    let buffer := writeEntries es 1 header (writeAt preludeSize (toBytes 8 es.length)
      (writeAt 4 [formatVersion, flagCrcPresent, 0, 0] (writeAt 0 magic
        (List.replicate (header + size + crc32Size) 0))))
    writeAt (header + size) (toBytes 4 (crc32Compute ((buffer.drop header).take size)).toNat)
      buffer = image es := by
  intro header size buffer
  have hblank : List.replicate (header + size + crc32Size) (0 : UInt8) =
      [] ++ (List.replicate 4 0 ++ (List.replicate 4 0 ++ (List.replicate 8 0 ++
        (List.replicate (es.length * 16) 0 ++
          ([] ++ (List.replicate size 0 ++ List.replicate 4 0)))))) := by
    simp only [List.nil_append, List.replicate_append_replicate]
    congr 1
    simp only [header, headerSize, preludeSize, crc32Size]
    omega
  let front := magic ++ ([formatVersion, flagCrcPresent, 0, 0] ++ toBytes 8 es.length)
  let table := (offsetsFrom header es).flatMap (toBytes 8)
  have hfront : front.length = 16 := by simp [front, magic]
  have htable : table.length = es.length * 16 := by
    rw [length_table, length_offsets_from]
    omega
  have hheader : (front ++ table).length = header := by
    rw [List.length_append, hfront, htable]
    simp only [header, headerSize, preludeSize]
    omega
  have hbuffer : buffer = front ++ table ++ (dataOf es ++ List.replicate 4 0) := by
    simp only [buffer, hblank]
    rw [write_at_append (by rfl) (by rfl), List.nil_append,
      write_at_append (by rfl) (by rfl), ← List.append_assoc magic,
      write_at_append (by rfl) (by simp), ← List.append_assoc (magic ++ _),
      write_entries_eq _ (by simp [magic, preludeSize]) (by simp)
        (by simp [magic, header, headerSize, preludeSize]; omega) (by simp [size])]
    simp [front, table]
  rw [hbuffer, List.drop_left' hheader, List.take_left' rfl, ← List.append_assoc (front ++ table),
    ← List.append_nil (List.replicate 4 0),
    write_at_append (by rw [List.length_append, hheader]) (by simp)]
  simp [image, front, table, header]

/-- What `serialize` requires of the options. -/
structure Serializable {TypeId : Type} {Val : TypeId → Type} (o : Options Val) : Prop where
  count : o.entries.length ≤ maxOptions
  key : ∀ e ∈ o.entries, e.1.length ≤ maxKeyLen
  unparsed : ∀ e ∈ o.entries, e.2.value = none
  value : ∀ e ∈ o.entries, e.2.valueAsString.length ≤ maxValueLen
  total : (image o.getStrings).length ≤ maxTotalSize

theorem length_image (es : List (Bytes × Bytes)) :
    (image es).length = headerSize es.length + (dataOf es).length + crc32Size := by
  simp only [image, List.length_append, length_table, List.length_cons, length_offsets_from,
    length_toBytes, magic, headerSize, preludeSize, crc32Size, List.length_nil]
  omega

section

variable {TypeId : Type} {Val : TypeId → Type}

/-- The first loop of `serialize` adds up the sizes of options that are within the limits. -/
theorem add_size_loop {es : List (Bytes × OptionValue Val)} {n m : Nat} :
    es.foldlM addSize n = .ok m ↔
      (∀ e ∈ es, e.1.length ≤ maxKeyLen ∧ e.2.value = none ∧
        e.2.valueAsString.length ≤ maxValueLen) ∧
      n + (dataOf (es.map fun e => (e.1, e.2.valueAsString))).length = m := by
  induction es generalizing n with
  | nil => simp [dataOf, pure_eq_ok]
  | cons e es ih =>
      have hsize : ∀ k, addSize n e = .ok k ↔ (e.1.length ≤ maxKeyLen ∧ e.2.value = none ∧
          e.2.valueAsString.length ≤ maxValueLen) ∧
          n + (e.1.length + e.2.valueAsString.length) = k := by
        intro k
        simp only [addSize, bind_eq_ok, expects_eq_ok, pure_eq_ok, exists_const,
          Option.not_isSome_iff_eq_none, and_assoc]
      rw [List.foldlM_cons, bind_eq_ok]
      simp only [hsize, ih, and_assoc, exists_and_left, exists_eq_left', List.forall_mem_cons,
        List.map_cons, dataOf, List.flatMap_cons, List.length_append, Nat.add_assoc]

/-- The strings in order of their keys. -/
def sortedStrings (o : Options Val) : List (Bytes × Bytes) := o.getStrings.insertionSort KeyLe

theorem sorted_strings_perm (o : Options Val) : (sortedStrings o).Perm o.getStrings :=
  List.perm_insertionSort KeyLe _

theorem length_data_perm {es es' : List (Bytes × Bytes)} (h : es.Perm es') :
    (dataOf es).length = (dataOf es').length :=
  (h.flatMap_right _).length_eq

/-- `serialize` throws unless the options are within the limits, and else gives their image. -/
theorem serialize_eq_ok {o : Options Val} {buffer : Bytes} :
    o.serialize = .ok buffer ↔ Serializable o ∧ image (sortedStrings o) = buffer := by
  have hperm := sorted_strings_perm o
  have hlength : (sortedStrings o).length = o.entries.length := by
    rw [hperm.length_eq, Options.getStrings, List.length_map]
  have htotal : (image o.getStrings).length =
      headerSize o.entries.length + (dataOf o.getStrings).length + crc32Size := by
    rw [length_image, Options.getStrings, List.length_map]
  have himage := written_eq_image (sortedStrings o)
  simp only [hlength, length_data_perm hperm] at himage
  constructor
  · intro h
    simp only [Options.serialize, bind_eq_ok, expects_eq_ok, pure_eq_ok, add_size_loop,
      Nat.zero_add] at h
    obtain ⟨-, hcount, size, ⟨hentries, rfl⟩, -, hsize, rfl⟩ := h
    refine ⟨⟨hcount, fun e he => (hentries e he).1, fun e he => (hentries e he).2.1,
      fun e he => (hentries e he).2.2, ?_⟩, himage.symm⟩
    rw [htotal]
    exact hsize
  · rintro ⟨hs, rfl⟩
    have hloop : o.entries.foldlM addSize 0 = .ok (dataOf o.getStrings).length :=
      add_size_loop.mpr ⟨fun e he => ⟨hs.key e he, hs.unparsed e he, hs.value e he⟩,
        Nat.zero_add _⟩
    have hsize := hs.total
    rw [htotal] at hsize
    simp only [Options.serialize, expects_bind hs.count, hloop]
    exact (expects_bind hsize).trans (congrArg Except.ok himage)

end

/-! ## Reading an image -/

/-- Options whose image is within the limits of the format. -/
structure Sendable (es : List (Bytes × Bytes)) : Prop where
  nodup : (es.map Prod.fst).Nodup
  count : es.length ≤ maxOptions
  key : ∀ e ∈ es, e.1.length ≤ maxKeyLen
  value : ∀ e ∈ es, e.2.length ≤ maxValueLen
  total : (image es).length ≤ maxTotalSize

theorem data_of_append (es es' : List (Bytes × Bytes)) :
    dataOf (es ++ es') = dataOf es ++ dataOf es' :=
  List.flatMap_append

theorem data_of_cons (e : Bytes × Bytes) (es : List (Bytes × Bytes)) :
    dataOf (e :: es) = e.1 ++ (e.2 ++ dataOf es) := by
  rw [dataOf, List.flatMap_cons, List.append_assoc, ← dataOf]

/-- The offsets of one of the options. -/
theorem get_offsets_from {d : Nat} {before after : List (Bytes × Bytes)} {e : Bytes × Bytes} :
    (offsetsFrom d (before ++ e :: after))[2 * before.length]? =
        some (d + (dataOf before).length) ∧
      (offsetsFrom d (before ++ e :: after))[2 * before.length + 1]? =
        some (d + (dataOf before).length + e.1.length) := by
  induction before generalizing d with
  | nil => exact ⟨rfl, rfl⟩
  | cons b before ih =>
      obtain ⟨hkey, hvalue⟩ := ih (d := d + b.1.length + b.2.length)
      have hindex : 2 * (b :: before).length = 2 * before.length + 1 + 1 := by
        rw [List.length_cons]
        omega
      have hsize : d + (dataOf (b :: before)).length =
          d + b.1.length + b.2.length + (dataOf before).length := by
        rw [data_of_cons, List.length_append, List.length_append]
        omega
      rw [hindex, hsize]
      exact ⟨hkey, hvalue⟩

/-- What precedes the strings of an image. -/
theorem image_eq (es : List (Bytes × Bytes)) : ∃ header : Bytes,
    header.length = headerSize es.length ∧
      image es = header ++ (dataOf es ++ toBytes 4 (crc32Compute (dataOf es)).toNat) := by
  refine ⟨magic ++ ([formatVersion, flagCrcPresent, 0, 0] ++
    (es.length :: offsetsFrom (headerSize es.length) es).flatMap (toBytes 8)), ?_, ?_⟩
  · simp only [List.length_append, length_table, List.length_cons, length_offsets_from, magic,
      headerSize, preludeSize, List.length_nil]
    omega
  · rw [image]
    simp only [List.append_assoc]

/-- The header of an image is a table. -/
theorem read_image_table {es : List (Bytes × Bytes)} {k n : Nat}
    (hn : (es.length :: offsetsFrom (headerSize es.length) es)[k]? = some n) (h : n < 256 ^ 8) :
    readAt (preludeSize + k * 8) 8 (image es) = n := by
  rw [image, ← List.append_assoc]
  exact (read_at_append (magic ++ [formatVersion, flagCrcPresent, 0, 0]) _ _ 8).trans
    (read_at_table hn h _)

theorem max_total_size_lt : maxTotalSize < 256 ^ 8 := by decide

/-- An image has its number of options. -/
theorem read_count {es : List (Bytes × Bytes)} (h : Sendable es) :
    readAt preludeSize 8 (image es) = es.length := by
  have hlt : es.length < 256 ^ 8 := Nat.lt_of_le_of_lt h.count (by decide)
  exact read_image_table (k := 0) rfl hlt

section

variable {before after : List (Bytes × Bytes)} {e : Bytes × Bytes}

theorem length_data_middle : (dataOf (before ++ e :: after)).length =
    (dataOf before).length + e.1.length + e.2.length + (dataOf after).length := by
  rw [data_of_append, data_of_cons]
  simp only [List.length_append]
  omega

/-- The offsets in an image are those of the strings. -/
theorem read_offsets (h : Sendable (before ++ e :: after)) :
    keyOffsetAt (image (before ++ e :: after)) before.length =
        headerSize (before ++ e :: after).length + (dataOf before).length ∧
      valueOffsetAt (image (before ++ e :: after)) before.length =
        headerSize (before ++ e :: after).length + (dataOf before).length + e.1.length := by
  obtain ⟨hkey, hvalue⟩ :=
    @get_offsets_from (headerSize (before ++ e :: after).length) before after e
  have htotal := h.total
  rw [length_image, length_data_middle] at htotal
  have hlt := max_total_size_lt
  constructor
  · refine read_image_table (k := 1 + 2 * before.length) ?_ (by omega)
    rw [Nat.add_comm 1, List.getElem?_cons_succ]
    exact hkey
  · refine read_image_table (k := 1 + 2 * before.length + 1) ?_ (by omega)
    rw [Nat.add_comm 1, List.getElem?_cons_succ]
    exact hvalue

/-- The strings of one of the options end where those of the next begin, or the data does. -/
theorem read_next_offset (h : Sendable (before ++ e :: after)) {dataLimit : Nat}
    (hlimit : dataLimit = headerSize (before ++ e :: after).length +
      (dataOf (before ++ e :: after)).length) :
    (if before.length + 1 < (before ++ e :: after).length then
        keyOffsetAt (image (before ++ e :: after)) (before.length + 1) else dataLimit) =
      headerSize (before ++ e :: after).length + (dataOf before).length + e.1.length +
        e.2.length := by
  cases after with
  | nil =>
      rw [if_neg (by simp), hlimit, length_data_middle]
      simp only [dataOf, List.flatMap_nil, List.length_nil]
      omega
  | cons next after =>
      rw [if_pos (by simp)]
      have hsplit : before ++ e :: next :: after = (before ++ [e]) ++ next :: after := by simp
      rw [hsplit] at h ⊢
      have hread := (read_offsets h).1
      rw [List.length_append, List.length_singleton] at hread
      rw [hread, data_of_append, data_of_cons]
      simp only [List.length_append, dataOf, List.flatMap_nil, List.length_nil]
      omega

/-- One of the options is read back, unless its key is empty. -/
theorem read_entry_image (h : Sendable (before ++ e :: after)) {dataLimit : Nat}
    (hlimit : dataLimit = headerSize (before ++ e :: after).length +
      (dataOf (before ++ e :: after)).length) :
    readEntry (image (before ++ e :: after)) (before ++ e :: after).length
        (headerSize (before ++ e :: after).length) dataLimit before.length =
      if e.1 = [] then throw (.outOfRange "key offset must be less than value offset")
      else pure e := by
  have hnext := read_next_offset h hlimit
  obtain ⟨hkey, hvalue⟩ := read_offsets h
  obtain ⟨header, hheader, himage⟩ := image_eq (before ++ e :: after)
  have hmem : e ∈ before ++ e :: after := by simp
  have hkeyLen := h.key e hmem
  have hvalueLen := h.value e hmem
  rw [length_data_middle] at hlimit
  -- the slices that the two strings are
  have hkeySlice : ((image (before ++ e :: after)).drop (headerSize (before ++ e :: after).length +
      (dataOf before).length)).take e.1.length = e.1 := by
    rw [himage, data_of_append, data_of_cons]
    simp only [List.append_assoc]
    rw [← List.append_assoc header, List.drop_left' (by rw [List.length_append, hheader]),
      List.take_left' rfl]
  have hvalueSlice : ((image (before ++ e :: after)).drop (headerSize (before ++ e :: after).length
      + (dataOf before).length + e.1.length)).take e.2.length = e.2 := by
    rw [himage, data_of_append, data_of_cons]
    simp only [List.append_assoc]
    rw [← List.append_assoc header, ← List.append_assoc (header ++ dataOf before),
      List.drop_left' (by simp only [List.length_append, hheader]), List.take_left' rfl]
  generalize himg : image (before ++ e :: after) = img at *
  generalize hhs : headerSize (before ++ e :: after).length = hs at *
  simp only [readEntry, hkey, hvalue, hnext]
  rw [expects_bind (by omega)]
  by_cases hempty : e.1 = []
  · rw [if_pos hempty, expects_bind_of_not (by simp [hempty])]
    rfl
  · have hpos : 0 < e.1.length := List.length_pos_iff.mpr hempty
    rw [if_neg hempty, expects_bind (by omega), expects_bind (by omega), expects_bind (by omega),
      expects_bind (by omega), expects_bind (by omega), expects_bind (by omega),
      Nat.add_sub_cancel_left, Nat.add_sub_cancel_left, hkeySlice, hvalueSlice]

end

/-- The checksum of an image is the one of its strings. -/
theorem validate_crc_image {es : List (Bytes × Bytes)} :
    validateCrcAndGetDataLimit (image es) (headerSize es.length) flagCrcPresent =
      pure (headerSize es.length + (dataOf es).length) := by
  obtain ⟨header, hheader, himage⟩ := image_eq es
  have hlength := length_image es
  have hpos : (image es).length - crc32Size = headerSize es.length + (dataOf es).length := by
    rw [hlength, Nat.add_sub_cancel]
  have hdata : ((image es).drop (headerSize es.length)).take (dataOf es).length = dataOf es := by
    rw [himage, List.drop_left' hheader, List.take_left' rfl]
  have hcrc : readAt (headerSize es.length + (dataOf es).length) 4 (image es) =
      (crc32Compute (dataOf es)).toNat := by
    have hlt : (crc32Compute (dataOf es)).toNat < 256 ^ 4 := UInt32.toNat_lt _
    have hread := read_at_append (header ++ dataOf es) (toBytes 4 (crc32Compute (dataOf es)).toNat)
      0 4
    rw [List.length_append, hheader, Nat.add_zero, List.append_assoc, ← himage] at hread
    rw [hread, ← List.append_nil (toBytes 4 _), read_at_zero hlt]
  rw [validateCrcAndGetDataLimit, if_pos (by decide), expects_bind (by omega)]
  simp only [hpos, Nat.add_sub_cancel_left, hdata]
  rw [expects_bind hcrc]

/-- The loop of `deserialize` reads back the options from one on, up to an empty key. -/
theorem read_entries_image {es before after : List (Bytes × Bytes)} (hes : es = before ++ after)
    (h : Sendable es) {dataLimit : Nat}
    (hlimit : dataLimit = headerSize es.length + (dataOf es).length) :
    (List.range' before.length after.length).foldlM (fun ret i => do
        let e ← readEntry (image es) es.length (headerSize es.length) dataLimit i
        pure (emplaceString ret e)) before =
      if ∃ e ∈ after, e.1 = [] then
        throw (.outOfRange "key offset must be less than value offset")
      else pure es := by
  induction after generalizing before with
  | nil =>
      rw [List.append_nil] at hes
      simp [hes]
  | cons e after ih =>
      subst hes
      have hrest := @ih (before ++ [e]) (by simp)
      rw [List.length_cons, List.range'_succ, List.foldlM_cons, read_entry_image h hlimit]
      by_cases hempty : e.1 = []
      · rw [if_pos hempty, if_pos ⟨e, List.mem_cons_self, hempty⟩]
        rfl
      · have hnew : emplaceString before e = before ++ [e] := by
          refine if_neg fun hmem => ?_
          have hnodup := h.nodup
          rw [List.map_append, List.nodup_append] at hnodup
          exact hnodup.2.2 _ hmem _ (by simp) rfl
        have hnext : (before ++ [e]).length = before.length + 1 := by
          rw [List.length_append, List.length_singleton]
        rw [hnext] at hrest
        rw [if_neg hempty]
        simp only [pure_bind, hnew, hrest, List.mem_cons, exists_eq_or_imp, hempty, false_or]

section

variable {TypeId : Type} {Val : TypeId → Type}

/-- `deserialize` refuses an image with an empty key, and makes options of any other. -/
theorem deserialize_image {es : List (Bytes × Bytes)} (h : Sendable es) :
    (Options.deserialize (image es) : Except Exception (Options Val)) =
      if ∃ e ∈ es, e.1 = [] then
        throw (.outOfRange "key offset must be less than value offset")
      else Options.ofStrings es := by
  have hloop := read_entries_image (List.nil_append es).symm h rfl
  rw [List.length_nil, ← List.range_eq_range'] at hloop
  have hlength := length_image es
  have hheader : preludeSize + 8 ≤ headerSize es.length := by
    rw [headerSize]
    omega
  have hmagic : (image es).take 4 = magic := rfl
  have hversion : (image es).getD 4 0 = formatVersion := rfl
  have hflags : (image es).getD 5 0 = flagCrcPresent := rfl
  simp only [Options.deserialize, hmagic, hversion, hflags, read_count h]
  rw [expects_bind (by omega), expects_bind h.total, expects_bind trivial, expects_bind trivial,
    expects_bind h.count, expects_bind (by omega), expects_bind h.count, validate_crc_image,
    pure_bind, hloop]
  split
  · rfl
  · rfl

/-- The strings of serializable options can be read back. -/
theorem sendable_sorted {o : Options Val} (h : Serializable o) : Sendable (sortedStrings o) where
  nodup := by
    rw [((sorted_strings_perm o).map Prod.fst).nodup_iff, Options.map_fst_get_strings]
    exact o.nodup
  count := by
    rw [(sorted_strings_perm o).length_eq, Options.getStrings, List.length_map]
    exact h.count
  key := by
    intro e he
    obtain ⟨e', he', rfl⟩ := List.mem_map.mp ((sorted_strings_perm o).mem_iff.mp he)
    exact h.key e' he'
  value := by
    intro e he
    obtain ⟨e', he', rfl⟩ := List.mem_map.mp ((sorted_strings_perm o).mem_iff.mp he)
    exact h.value e' he'
  total := by
    have htotal := h.total
    have hperm := sorted_strings_perm o
    rw [length_image] at htotal ⊢
    rw [hperm.length_eq, length_data_perm hperm]
    exact htotal

/-- Options come back from their serialized form with the strings they had. -/
def Survives (o : Options Val) (buffer : Bytes) : Prop :=
  ∃ o' : Options Val, Options.deserialize buffer = .ok o' ∧ o'.getStrings.Perm o.getStrings

/-- Options survive exactly when all of their keys are tidy. -/
theorem survives_iff {o : Options Val} {buffer : Bytes} (h : o.serialize = .ok buffer) :
    Survives o buffer ↔ ∀ key ∈ o.keys, Tidy key := by
  obtain ⟨hs, rfl⟩ := serialize_eq_ok.mp h
  have hperm := sorted_strings_perm o
  have hkeys : ∀ key, key ∈ o.keys ↔ key ∈ (sortedStrings o).map Prod.fst := by
    intro key
    rw [← Options.map_fst_get_strings, (hperm.map Prod.fst).mem_iff]
  have hread := @deserialize_image _ Val _ (sendable_sorted hs)
  -- the strings of what is read back are those sent, under the normal forms of their keys
  have hstrings : ∀ o' : Options Val, Options.ofStrings (sortedStrings o) = .ok o' →
      o'.getStrings = (sortedStrings o).map fun e => (normalise e.1, e.2) := by
    intro o' ho'
    rw [Options.of_strings_eq_ok] at ho'
    rw [Options.getStrings, ho', List.map_map]
    rfl
  constructor
  · rintro ⟨o', hok, hsame⟩ key hkey
    rw [hread] at hok
    split at hok
    · cases hok
    · next hnonempty =>
      have hnorm : ((sortedStrings o).map fun e => normalise e.1).Perm
          ((sortedStrings o).map Prod.fst) := by
        have hfst := (hsame.trans hperm.symm).map Prod.fst
        rw [hstrings o' hok, List.map_map] at hfst
        exact hfst
      obtain ⟨e, he, rfl⟩ := List.mem_map.mp ((hkeys key).mp hkey)
      obtain ⟨e', -, he'⟩ := List.mem_map.mp (hnorm.mem_iff.mpr (List.mem_map_of_mem he))
      refine ⟨fun hempty => hnonempty ⟨e, he, hempty⟩, ?_⟩
      rw [← he', normalise_normalise]
  · intro htidy
    have hnonempty : ¬ ∃ e ∈ sortedStrings o, e.1 = [] := by
      rintro ⟨e, he, hempty⟩
      exact (htidy e.1 ((hkeys _).mpr (List.mem_map_of_mem he))).1 hempty
    have hsame : ((sortedStrings o).map fun e => (normalise e.1, e.2)) = sortedStrings o := by
      refine (List.map_congr_left fun e he => ?_).trans (List.map_id _)
      rw [(htidy e.1 ((hkeys _).mpr (List.mem_map_of_mem he))).2]
      rfl
    let o' : Options Val := ⟨(sortedStrings o).map fun e => (normalise e.1, .ofString e.2), by
      have hfst : ((sortedStrings o).map fun e => normalise e.1) =
          (sortedStrings o).map Prod.fst := by
        have hmap := congrArg (List.map Prod.fst) hsame
        rw [List.map_map] at hmap
        exact hmap
      rw [List.map_map]
      exact hfst ▸ (sendable_sorted hs).nodup⟩
    have hok : Options.ofStrings (sortedStrings o) = .ok o' := Options.of_strings_eq_ok.mpr rfl
    refine ⟨o', ?_, ?_⟩
    · rw [hread, if_neg hnonempty, hok]
    · rw [hstrings o' hok, hsame]
      exact hperm

theorem key_le_total (a b : Bytes × Bytes) : KeyLe a b ∨ KeyLe b a := List.le_total a.1 b.1

theorem key_le_trans {a b c : Bytes × Bytes} (hab : KeyLe a b) (hbc : KeyLe b c) : KeyLe a c :=
  List.le_trans hab hbc

theorem sorted_strings_pairwise (o : Options Val) : (sortedStrings o).Pairwise KeyLe := by
  have : Std.Total KeyLe := ⟨key_le_total⟩
  have : IsTrans (Bytes × Bytes) KeyLe := ⟨fun _ _ _ => key_le_trans⟩
  exact List.pairwise_insertionSort KeyLe _

/-- The order of the serialized strings is not the one of the map. -/
theorem sorted_strings_eq {o₁ o₂ : Options Val} (h : o₁.getStrings.Perm o₂.getStrings) :
    sortedStrings o₁ = sortedStrings o₂ := by
  have hperm := (sorted_strings_perm o₁).trans (h.trans (sorted_strings_perm o₂).symm)
  have hnodup : ((sortedStrings o₂).map Prod.fst).Nodup := by
    rw [((sorted_strings_perm o₂).map Prod.fst).nodup_iff, Options.map_fst_get_strings]
    exact o₂.nodup
  refine hperm.eq_of_pairwise ?_ (sorted_strings_pairwise o₁) (sorted_strings_pairwise o₂)
  intro a b ha hb hab hba
  -- the keys are distinct, so an entry is known by its key
  exact List.inj_on_of_nodup_map hnodup (hperm.mem_iff.mp ha) hb (List.le_antisymm hab hba)

/-- Options come back from the wire with the strings they had exactly when no operation of the run
stored an option under a key that is empty or not in normal form; and the serialized form is one
of the strings, not of the order in which they were inserted. -/
theorem survives_wire_iff [DecidableEq TypeId] {o : Options Val} {buffer : Bytes}
    (hreach : (system Val).Reachable (some o)) (h : o.serialize = .ok buffer) :
    (Survives o buffer ↔ (system Val).Reach TidyStep (some o)) ∧
      ∀ (o₂ : Options Val) (buffer₂ : Bytes), (system Val).Reachable (some o₂) →
        o₂.serialize = .ok buffer₂ → o₂.getStrings.Perm o.getStrings → buffer₂ = buffer := by
  constructor
  · rw [survives_iff h, tidy_iff hreach]
    rfl
  · intro o₂ buffer₂ _ h₂ hsame
    rw [← (serialize_eq_ok.mp h).2, ← (serialize_eq_ok.mp h₂).2, sorted_strings_eq hsame]

end

/-- The options of which the values, once parsed, are numbers. -/
abbrev Numbers : Unit → Type := fun _ => Nat

/-- The option `log`, given in upper case. -/
def logOption : Options Numbers := ⟨[([108, 111, 103], .ofString [49])], by simp⟩

/-- The options `log` and `size`, in either order. -/
def logThenSize : Options Numbers :=
  ⟨[([108, 111, 103], .ofString [49]), ([115, 105, 122, 101], .ofString [50, 48])], by decide⟩

def sizeThenLog : Options Numbers :=
  ⟨[([115, 105, 122, 101], .ofString [50, 48]), ([108, 111, 103], .ofString [49])], by decide⟩

/-- The object is made with `LOG`, the option `Size` is inserted. -/
theorem log_then_size_reach : (system Numbers).Reach TidyStep (some logThenSize) := by
  have hlog : (system Numbers).Reach TidyStep (some logOption) := by
    refine .step (l := .constructFromStrings [([76, 79, 71], [49])]) (.init rfl) ?_
      ⟨logOption, logOption, rfl, .refl _, rfl⟩
    intro key hkey
    obtain rfl : key = [108, 111, 103] := List.mem_singleton.mp hkey
    exact .inr ⟨by decide, by decide⟩
  refine hlog.step (l := .insert [83, 105, 122, 101] [50, 48]) ?_
    ⟨logThenSize, logThenSize, rfl, .refl _, rfl⟩
  intro key hkey
  obtain rfl : key = [115, 105, 122, 101] := List.mem_singleton.mp hkey
  exact .inr ⟨by decide, by decide⟩

theorem size_then_log_reachable : (system Numbers).Reachable (some sizeThenLog) :=
  .next (l := .constructFromStrings [([83, 73, 90, 69], [50, 48]), ([108, 111, 103], [49])])
    (.of_init rfl) ⟨sizeThenLog, sizeThenLog, rfl, .refl _, rfl⟩

/-- Two options survive, and the order in which they were inserted does not matter. -/
theorem log_and_size_survive : ∃ buffer buffer', logThenSize.serialize = .ok buffer ∧
    Survives logThenSize buffer ∧ sizeThenLog.serialize = .ok buffer' ∧ buffer' = buffer := by
  obtain ⟨hsurvives, horder⟩ :=
    survives_wire_iff (log_then_size_reach.mono fun _ _ _ => trivial) (o := logThenSize) rfl
  exact ⟨_, _, rfl, hsurvives.mpr log_then_size_reach, rfl,
    horder sizeThenLog _ size_then_log_reachable rfl (.swap _ _ [])⟩

/-- The options made from a map whose one key is a space. -/
def emptyKey : Options Numbers := ⟨[([], .ofString [49])], by simp⟩

/-- Options without strings, after a `get` of the key `LOG` that threw. -/
def rawKey : Options Numbers := ⟨[([76, 79, 71], {})], by simp⟩

/-- What is serialized under an empty key is refused, and a key that `get` left as it was given
comes back as another one. -/
theorem empty_key_refused :
    ((system Numbers).Reachable (some emptyKey) ∧ ∃ buffer, emptyKey.serialize = .ok buffer ∧
      (Options.deserialize buffer : Except Exception (Options Numbers)) =
        .error (.outOfRange "key offset must be less than value offset")) ∧
    ((system Numbers).Reachable (some rawKey) ∧ ∃ buffer, rawKey.serialize = .ok buffer ∧
      (Options.deserialize buffer : Except Exception (Options Numbers)).map Options.getStrings =
        .ok [([108, 111, 103], [])]) := by
  refine ⟨⟨?_, _, rfl, rfl⟩, ⟨?_, _, rfl, rfl⟩⟩
  · exact .step (l := .constructFromStrings [([32], [49])]) (.init rfl) trivial
      ⟨emptyKey, emptyKey, rfl, .refl _, rfl⟩
  · refine .step (s := some .empty) (l := .get [76, 79, 71] () fun _ =>
      .error (.ofFactory "no value")) ?_ trivial ⟨rawKey, rawKey, rfl, .refl _, rfl⟩
    exact .step (l := .construct []) (.init rfl) trivial ⟨.empty, .empty, rfl, .refl _, rfl⟩

end Rapidsmpf.Config
