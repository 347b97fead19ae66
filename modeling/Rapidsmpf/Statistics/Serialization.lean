import Rapidsmpf.Lib.Codec
import Rapidsmpf.Memory.Buffer

/-!
# Statistics on the wire

`Statistics::serialize` and `Statistics::deserialize` of `statistics.cpp`: three walks over the
same members, one that adds up the size of the buffer, one that writes it and one that reads it.
`serialize_eq_image` says that the writer fills exactly the buffer that was allocated;
`deserialize_image` is the round trip, and `image_injective` says that no two sets of members have
the same image.

The values of a statistic are kept as the bits of the doubles, which are only ever copied.
-/

namespace Rapidsmpf.Statistics

open LittleEndian Codec Fallible

/-! ## Members -/

/-- `Statistics::Stat`, with the bits of its value and maximum. -/
structure Stat where
  count : UInt64
  value : UInt64
  max : UInt64
deriving DecidableEq

/-- `Statistics::Formatter`. `sentinel` is `_Count`, which stands behind the last formatter. -/
inductive Formatter where
  | default
  | bytes
  | duration
  | hitRate
  | memoryThroughput
  | gauge
  | sentinel
deriving DecidableEq

/-- The underlying byte of a formatter. -/
def Formatter.toByte : Formatter → UInt8
  | .default => 0
  | .bytes => 1
  | .duration => 2
  | .hitRate => 3
  | .memoryThroughput => 4
  | .gauge => 5
  | .sentinel => 6

/-- The conversion of a byte to a formatter. -/
def Formatter.ofByte (b : UInt8) : Formatter :=
  if b = 0 then .default
  else if b = 1 then .bytes
  else if b = 2 then .duration
  else if b = 3 then .hitRate
  else if b = 4 then .memoryThroughput
  else if b = 5 then .gauge
  else .sentinel

/-- `Statistics::ReportEntry`. -/
structure ReportEntry where
  statNames : List Bytes
  formatter : Formatter
deriving DecidableEq

/-- The members that are serialized, the maps in order of their keys. -/
structure Members where
  enabled : Bool
  stats : List (Bytes × Stat)
  reportEntries : List (Bytes × ReportEntry)
deriving DecidableEq

/-- `Statistics`: the maps are sorted, and the sizes of all containers fit a `std::size_t`. -/
structure Object extends Members where
  stats_sorted : (stats.map Prod.fst).Pairwise (· < ·)
  entries_sorted : (reportEntries.map Prod.fst).Pairwise (· < ·)
  stats_lt : stats.length < 2 ^ 64
  stat_name_lt : ∀ e ∈ stats, e.1.length < 2 ^ 64
  entries_lt : reportEntries.length < 2 ^ 64
  entry_name_lt : ∀ e ∈ reportEntries, e.1.length < 2 ^ 64
  names_lt : ∀ e ∈ reportEntries, e.2.statNames.length < 2 ^ 64
  name_lt : ∀ e ∈ reportEntries, ∀ name ∈ e.2.statNames, name.length < 2 ^ 64

/-! ## Writing -/

/-- `Stat::serialized_size`. -/
def statSize : Nat := 8 + 8 + 8

/-- The size computed for the buffer. -/
def totalSize (m : Members) : Nat :=
  let total := 1
  let total := total + 8
  let total := m.stats.foldl (fun total e => total + (8 + e.1.length + statSize)) total
  let total := total + 8
  m.reportEntries.foldl (fun total e =>
    let total := total + (8 + e.1.length)
    let total := total + 1
    let total := total + 8
    e.2.statNames.foldl (fun total name => total + (8 + name.length)) total) total

/-- `write_pod` of a `std::uint64_t`. -/
def writeSize (n : Nat) : Cursor → Cursor := Cursor.write (toBytes 8 n)

/-- The length of a string and its bytes. -/
def writeString (s : Bytes) (ptr : Cursor) : Cursor :=
  (writeSize s.length ptr).write s

/-- `Stat::serialize`. -/
def Stat.serialize (s : Stat) (out : Cursor) : Cursor :=
  ((out.write (toBytes 8 s.count.toNat)).write (toBytes 8 s.value.toNat)).write
    (toBytes 8 s.max.toNat)

/-- One statistic. -/
def writeStat (e : Bytes × Stat) (ptr : Cursor) : Cursor :=
  e.2.serialize (writeString e.1 ptr)

/-- One report entry. -/
def writeEntry (e : Bytes × ReportEntry) (ptr : Cursor) : Cursor :=
  let ptr := writeString e.1 ptr
  let ptr := ptr.write [e.2.formatter.toByte]
  let ptr := writeSize e.2.statNames.length ptr
  e.2.statNames.foldl (fun ptr name => writeString name ptr) ptr

/-- The writes of `serialize`. -/
def writeMembers (m : Members) (ptr : Cursor) : Cursor :=
  let ptr := ptr.write [if m.enabled then 1 else 0]
  let ptr := writeSize m.stats.length ptr
  let ptr := m.stats.foldl (fun ptr e => writeStat e ptr) ptr
  let ptr := writeSize m.reportEntries.length ptr
  m.reportEntries.foldl (fun ptr e => writeEntry e ptr) ptr

/-- `Statistics::serialize`. -/
def serialize (m : Members) : Bytes :=
  (writeMembers m ⟨0, List.replicate (totalSize m) 0⟩).buffer

/-! ## Reading -/

/-- What `deserialize` throws. -/
inductive Error where
  | truncatedStatistics
  | truncatedStat
  | formatterOutOfRange
deriving DecidableEq

/-- The text of an exception, which is a `std::invalid_argument`. -/
def Error.what : Error → String
  | .truncatedStatistics => "truncated Statistics serialization data"
  | .truncatedStat => "truncated Stat serialization data"
  | .formatterOutOfRange => "Statistics::deserialize: Formatter value out of range"

/-- `read_pod` of an unsigned integer of a number of bytes. -/
def readPod (w : Nat) : Reader Error Nat := fun data =>
  if w ≤ data.length then .ok (readAt 0 w data, data.drop w) else .error .truncatedStatistics

/-- `read_string`. -/
def readString (len : Nat) : Reader Error Bytes := fun data =>
  if len ≤ data.length then .ok (data.take len, data.drop len) else .error .truncatedStatistics

/-- A length and a string. -/
def readName : Reader Error Bytes := fun data => do
  let (len, data) ← readPod 8 data
  readString len data

/-- `Stat::deserialize`. -/
def Stat.deserialize : Reader Error Stat := fun data =>
  if statSize ≤ data.length then
    let count := readAt 0 8 data
    let data := data.drop 8
    let value := readAt 0 8 data
    let data := data.drop 8
    let max := readAt 0 8 data
    .ok (⟨.ofNat count, .ofNat value, .ofNat max⟩, data.drop 8)
  else .error .truncatedStat

/-- `emplace` of a `std::map`. -/
def emplace {β : Type} (m : List (Bytes × β)) (key : Bytes) (b : β) : List (Bytes × β) :=
  match m with
  | [] => [(key, b)]
  | (k, b') :: m =>
      if key < k then (key, b) :: (k, b') :: m
      else if k < key then (k, b') :: emplace m key b
      else (k, b') :: m

/-- One round of the loop over the statistics. -/
def readStat (stats : List (Bytes × Stat)) : Reader Error (List (Bytes × Stat)) := fun data => do
  let (name, data) ← readName data
  let (stat, data) ← Stat.deserialize data
  .ok (emplace stats name stat, data)

/-- One round of the loop over the names of a report entry. -/
def readStatName (names : List Bytes) : Reader Error (List Bytes) := fun data => do
  let (name, data) ← readName data
  .ok (names ++ [name], data)

/-- One round of the loop over the report entries. -/
def readEntry (entries : List (Bytes × ReportEntry)) :
    Reader Error (List (Bytes × ReportEntry)) := fun data => do
  let (name, data) ← readName data
  let (fmt, data) ← readPod 1 data
  if Formatter.sentinel.toByte.toNat ≤ fmt then .error .formatterOutOfRange
  else
    let formatter := Formatter.ofByte (.ofNat fmt)
    let (numStatNames, data) ← readPod 8 data
    let (statNames, data) ← readLoop readStatName numStatNames [] data
    .ok (emplace entries name ⟨statNames, formatter⟩, data)

/-- `Statistics::deserialize`. What follows the entries is ignored. -/
def deserialize (data : Bytes) : Except Error Members := do
  let (enabled, data) ← readPod 1 data
  let (numStats, data) ← readPod 8 data
  let (stats, data) ← readLoop readStat numStats [] data
  let (numEntries, data) ← readPod 8 data
  let (entries, _) ← readLoop readEntry numEntries [] data
  .ok ⟨enabled != 0, stats, entries⟩

/-! ## The image -/

/-- A string behind its length. -/
def nameImage (s : Bytes) : Bytes := toBytes 8 s.length ++ s

/-- The payload of a statistic. -/
def statImage (s : Stat) : Bytes :=
  toBytes 8 s.count.toNat ++ toBytes 8 s.value.toNat ++ toBytes 8 s.max.toNat

/-- A statistic with its name. -/
def namedStatImage (e : Bytes × Stat) : Bytes := nameImage e.1 ++ statImage e.2

/-- A report entry with its name. -/
def entryImage (e : Bytes × ReportEntry) : Bytes :=
  nameImage e.1 ++ [e.2.formatter.toByte] ++ toBytes 8 e.2.statNames.length ++
    e.2.statNames.flatMap nameImage

/-- The serialized form of all members. -/
def image (m : Members) : Bytes :=
  [if m.enabled then 1 else 0] ++ toBytes 8 m.stats.length ++ m.stats.flatMap namedStatImage ++
    toBytes 8 m.reportEntries.length ++ m.reportEntries.flatMap entryImage

theorem fills_name (s : Bytes) : Fills (writeString s) (nameImage s) :=
  (Fills.write _).comp (Fills.write s)

theorem fills_stat (e : Bytes × Stat) : Fills (writeStat e) (namedStatImage e) :=
  (fills_name e.1).comp (((Fills.write _).comp (Fills.write _)).comp (Fills.write _))

theorem fills_entry (e : Bytes × ReportEntry) : Fills (writeEntry e) (entryImage e) :=
  (((fills_name e.1).comp (Fills.write [e.2.formatter.toByte])).comp (Fills.write _)).comp
    (Fills.loop fills_name e.2.statNames)

theorem fills_members (m : Members) : Fills (writeMembers m) (image m) :=
  ((((Fills.write [if m.enabled then 1 else 0]).comp (Fills.write _)).comp
    (Fills.loop fills_stat m.stats)).comp (Fills.write _)).comp
      (Fills.loop fills_entry m.reportEntries)

/-- The size that is computed is the one that is written. -/
theorem total_size_eq (m : Members) : totalSize m = (image m).length := by
  have hname : ∀ (n : Nat) (name : Bytes), n + (8 + name.length) = n + (nameImage name).length := by
    intro n name
    rw [nameImage, List.length_append, length_toBytes]
  have hstat : ∀ (n : Nat) (e : Bytes × Stat),
      n + (8 + e.1.length + statSize) = n + (namedStatImage e).length := by
    intro n e
    simp only [namedStatImage, nameImage, statImage, statSize, List.length_append, length_toBytes]
  have hentry : ∀ (n : Nat) (e : Bytes × ReportEntry),
      e.2.statNames.foldl (fun total name => total + (8 + name.length))
        (n + (8 + e.1.length) + 1 + 8) = n + (entryImage e).length := by
    intro n e
    rw [size_loop hname]
    simp only [entryImage, nameImage, List.length_append, length_toBytes, List.length_singleton,
      Nat.add_assoc]
  rw [totalSize, size_loop hstat, size_loop hentry]
  simp only [image, List.length_append, length_toBytes, List.length_singleton]

/-- `serialize` fills its buffer with the image, and nothing besides. -/
theorem serialize_eq_image (m : Members) : serialize m = image m :=
  (fills_members m).buffer_eq (total_size_eq m)

/-! ## Reading an image -/

theorem reads_pod {w n : Nat} (h : n < 256 ^ w) : Reads (readPod w) (toBytes w n) n := by
  intro rest
  rw [readPod, if_pos (by simp), read_at_zero h, List.drop_left' (length_toBytes w n)]

theorem reads_byte (b : UInt8) : Reads (readPod 1) [b] b.toNat := by
  intro rest
  rw [readPod, if_pos (by simp)]
  simp [readAt, ofBytes]

theorem reads_name {s : Bytes} (h : s.length < 2 ^ 64) : Reads readName (nameImage s) s := by
  intro rest
  have hlen : Reads (readPod 8) (toBytes 8 s.length) s.length := reads_pod h
  simp only [nameImage, List.append_assoc, readName, hlen.bind_eq]
  rw [readString, if_pos (by simp), List.take_left' rfl, List.drop_left' rfl]

theorem reads_stat (s : Stat) : Reads Stat.deserialize (statImage s) s := by
  intro rest
  have hcount := read_at_zero (w := 8) s.count.toNat_lt
    (toBytes 8 s.value.toNat ++ (toBytes 8 s.max.toNat ++ rest))
  have hvalue := read_at_zero (w := 8) s.value.toNat_lt (toBytes 8 s.max.toNat ++ rest)
  have hmax := read_at_zero (w := 8) s.max.toNat_lt rest
  rw [Stat.deserialize, if_pos (by simp [statImage, statSize]; omega)]
  simp only [statImage, List.append_assoc, hcount, hvalue, hmax, UInt64.ofNat_toNat,
    List.drop_left' (length_toBytes 8 _)]

/-- A key behind all others is added at the end. -/
theorem emplace_last {β : Type} {m : List (Bytes × β)} {key : Bytes} (b : β)
    (h : ∀ e ∈ m, e.1 < key) : emplace m key b = m ++ [(key, b)] := by
  induction m with
  | nil => rfl
  | cons e m ih =>
      have hlt : e.1 < key := h e List.mem_cons_self
      rw [emplace, if_neg (List.lt_asymm hlt), if_pos hlt,
        ih fun e' he' => h e' (List.mem_cons_of_mem _ he')]
      rfl

/-- A map whose keys are read in their order is rebuilt. -/
theorem foldl_emplace {β : Type} {m : List (Bytes × β)} (before : List (Bytes × β))
    (h : ((before ++ m).map Prod.fst).Pairwise (· < ·)) :
    m.foldl (fun m e => emplace m e.1 e.2) before = before ++ m := by
  induction m generalizing before with
  | nil => exact (List.append_nil before).symm
  | cons e m ih =>
      have hlast : emplace before e.1 e.2 = before ++ [e] := by
        refine emplace_last e.2 fun e' he' => ?_
        rw [List.map_append, List.pairwise_append] at h
        exact h.2.2 e'.1 (List.mem_map_of_mem he') e.1 (by simp)
      have hsplit : before ++ e :: m = (before ++ [e]) ++ m := by simp
      rw [List.foldl_cons, hlast, hsplit]
      rw [hsplit] at h
      exact ih (before ++ [e]) h

theorem reads_named_stat {e : Bytes × Stat} (h : e.1.length < 2 ^ 64)
    (stats : List (Bytes × Stat)) :
    Reads (readStat stats) (namedStatImage e) (emplace stats e.1 e.2) := by
  intro rest
  simp only [readStat, namedStatImage, List.append_assoc, (reads_name h).bind_eq,
    (reads_stat e.2).bind_eq]

theorem reads_stat_name {name : Bytes} (h : name.length < 2 ^ 64) (names : List Bytes) :
    Reads (readStatName names) (nameImage name) (names ++ [name]) := by
  intro rest
  simp only [readStatName, (reads_name h).bind_eq]

theorem foldl_concat (names before : List Bytes) :
    names.foldl (fun names name => names ++ [name]) before = before ++ names := by
  induction names generalizing before with
  | nil => exact (List.append_nil before).symm
  | cons name names ih =>
      rw [List.foldl_cons, ih, List.append_assoc, List.singleton_append]

theorem of_byte_to_byte (f : Formatter) : Formatter.ofByte f.toByte = f := by
  cases f <;> rfl

/-- Formatters but the sentinel are in range. -/
theorem formatter_lt {f : Formatter} (h : f ≠ .sentinel) :
    f.toByte.toNat < Formatter.sentinel.toByte.toNat := by
  cases f with
  | sentinel => exact absurd rfl h
  | _ => decide

/-- The limits on the sizes of a report entry. -/
structure EntryFits (e : Bytes × ReportEntry) : Prop where
  name : e.1.length < 2 ^ 64
  names : e.2.statNames.length < 2 ^ 64
  each : ∀ name ∈ e.2.statNames, name.length < 2 ^ 64

theorem reads_entry {e : Bytes × ReportEntry} (h : EntryFits e) (hf : e.2.formatter ≠ .sentinel)
    (entries : List (Bytes × ReportEntry)) :
    Reads (readEntry entries) (entryImage e) (emplace entries e.1 e.2) := by
  intro rest
  have hcount : Reads (readPod 8) (toBytes 8 e.2.statNames.length) e.2.statNames.length :=
    reads_pod h.names
  have hnames := reads_loop
    (fun names name hname => reads_stat_name (h.each name hname) names) []
  rw [foldl_concat, List.nil_append] at hnames
  simp only [readEntry, entryImage, List.append_assoc, (reads_name h.name).bind_eq,
    (reads_byte _).bind_eq]
  rw [if_neg (Nat.not_le.mpr (formatter_lt hf))]
  simp only [hcount.bind_eq, hnames.bind_eq, UInt8.ofNat_toNat, of_byte_to_byte]

theorem read_entry_sentinel {e : Bytes × ReportEntry} (h : EntryFits e)
    (hf : e.2.formatter = .sentinel) (entries : List (Bytes × ReportEntry)) (rest : Bytes) :
    readEntry entries (entryImage e ++ rest) = .error .formatterOutOfRange := by
  simp only [readEntry, entryImage, List.append_assoc, (reads_name h.name).bind_eq,
    (reads_byte _).bind_eq, hf]
  rw [if_pos le_rfl]

/-- The report entries are read back up to one with the sentinel. -/
theorem read_entries {entries : List (Bytes × ReportEntry)} (h : ∀ e ∈ entries, EntryFits e)
    (before : List (Bytes × ReportEntry)) (rest : Bytes) :
    readLoop readEntry entries.length before (entries.flatMap entryImage ++ rest) =
      if ∃ e ∈ entries, e.2.formatter = .sentinel then .error .formatterOutOfRange
      else .ok (entries.foldl (fun m e => emplace m e.1 e.2) before, rest) := by
  induction entries generalizing before with
  | nil => rfl
  | cons e entries ih =>
      have hfits := h e List.mem_cons_self
      have hrest := ih fun e' he' => h e' (List.mem_cons_of_mem _ he')
      rw [List.flatMap_cons, List.append_assoc, List.length_cons, readLoop]
      by_cases hf : e.2.formatter = .sentinel
      · rw [read_entry_sentinel hfits hf, if_pos ⟨e, List.mem_cons_self, hf⟩]
      · rw [reads_entry hfits hf before]
        simp only [hrest, List.mem_cons, exists_eq_or_imp, hf, false_or, List.foldl_cons]

theorem Object.entry_fits (s : Object) : ∀ e ∈ s.reportEntries, EntryFits e :=
  fun e he => ⟨s.entry_name_lt e he, s.names_lt e he, s.name_lt e he⟩

/-- What `deserialize` makes of an image. -/
theorem deserialize_image (s : Object) : deserialize (image s.toMembers) =
    if ∃ e ∈ s.reportEntries, e.2.formatter = .sentinel then .error .formatterOutOfRange
    else .ok s.toMembers := by
  have hstatCount : Reads (readPod 8) (toBytes 8 s.stats.length) s.stats.length :=
    reads_pod s.stats_lt
  have hentryCount : Reads (readPod 8) (toBytes 8 s.reportEntries.length) s.reportEntries.length :=
    reads_pod s.entries_lt
  have hstats := reads_loop
    (fun stats e he => reads_named_stat (s.stat_name_lt e he) stats) []
  rw [foldl_emplace [] s.stats_sorted, List.nil_append] at hstats
  have hentries := read_entries s.entry_fits [] []
  rw [foldl_emplace [] s.entries_sorted, List.nil_append, List.append_nil] at hentries
  simp only [deserialize, image, List.append_assoc, (reads_byte _).bind_eq, hstatCount.bind_eq,
    hstats.bind_eq, hentryCount.bind_eq, hentries]
  have henabled : ((if s.enabled then (1 : UInt8) else 0).toNat != 0) = s.enabled := by
    cases s.enabled <;> rfl
  split
  · rfl
  · simp only [henabled]
    rfl

/-! ## Injectivity -/

theorem delimits_size : Delimits (fun n => n < 256 ^ 8) (toBytes 8) :=
  .of_reads fun _ h => reads_pod h

theorem delimits_name : Delimits (fun s : Bytes => s.length < 2 ^ 64) nameImage :=
  .of_reads fun _ h => reads_name h

theorem delimits_stat :
    Delimits (fun e : Bytes × Stat => e.1.length < 2 ^ 64) namedStatImage := by
  rintro ⟨name, stat⟩ ⟨name', stat'⟩ h h' rest rest' heq
  simp only [namedStatImage, List.append_assoc] at heq
  obtain ⟨rfl, hrest⟩ := delimits_name name name' h h' _ _ heq
  have hstat : Delimits (fun _ : Stat => True) statImage := .of_reads fun s _ => reads_stat s
  obtain ⟨rfl, rfl⟩ := hstat stat stat' trivial trivial _ _ hrest
  exact ⟨rfl, rfl⟩

theorem to_byte_injective : Function.Injective Formatter.toByte :=
  Function.LeftInverse.injective of_byte_to_byte

theorem delimits_entry : Delimits EntryFits entryImage := by
  rintro ⟨name, names, f⟩ ⟨name', names', f'⟩ h h' rest rest' heq
  simp only [entryImage, List.append_assoc, List.singleton_append] at heq
  obtain ⟨rfl, hentry⟩ := delimits_name name name' h.name h'.name _ _ heq
  obtain ⟨hf, hcounted⟩ := List.cons.inj hentry
  obtain ⟨hlength, hnames⟩ := delimits_size _ _ h.names h'.names _ _ hcounted
  obtain ⟨rfl, rfl⟩ := delimits_name.flatMap h.each h'.each hlength hnames
  obtain rfl := to_byte_injective hf
  exact ⟨rfl, rfl⟩

/-- No two objects have the same image. -/
theorem image_injective {s t : Object} (h : image s.toMembers = image t.toMembers) :
    s.toMembers = t.toMembers := by
  have hfits := s.entry_fits
  have hfits' := t.entry_fits
  obtain ⟨⟨enabled, stats, entries⟩, _, _, hstats, hnames, hentries⟩ := s
  obtain ⟨⟨enabled', stats', entries'⟩, _, _, hstats', hnames', hentries'⟩ := t
  simp only [image, List.append_assoc, List.singleton_append] at h
  obtain ⟨hflag, hcounted⟩ := List.cons.inj h
  obtain ⟨hcount, hmaps⟩ := delimits_size _ _ hstats hstats' _ _ hcounted
  obtain ⟨rfl, hlast⟩ := delimits_stat.flatMap hnames hnames' hcount hmaps
  obtain ⟨hcount', hlist⟩ := delimits_size _ _ hentries hentries' _ _ hlast
  rw [← List.append_nil (entries.flatMap entryImage),
    ← List.append_nil (entries'.flatMap entryImage)] at hlist
  obtain ⟨rfl, -⟩ := delimits_entry.flatMap hfits hfits' hcount' hlist
  obtain rfl : enabled = enabled' := by
    cases enabled <;> cases enabled' <;> first | rfl | cases hflag
  rfl

/-- The members of an object come back from the wire unless an entry has the sentinel for its
formatter, and no two objects look the same on the wire. -/
theorem deserialize_serialize_iff (s : Object) :
    (deserialize (serialize s.toMembers) = .ok s.toMembers ↔
      ∀ e ∈ s.reportEntries, e.2.formatter ≠ .sentinel) ∧
    ∀ t : Object, serialize s.toMembers = serialize t.toMembers → s.toMembers = t.toMembers := by
  simp only [serialize_eq_image, deserialize_image]
  refine ⟨?_, fun t h => image_injective h⟩
  by_cases hsentinel : ∃ e ∈ s.reportEntries, e.2.formatter = .sentinel
  · obtain ⟨e, he, hf⟩ := hsentinel
    rw [if_pos ⟨e, he, hf⟩]
    exact ⟨nofun, fun h => absurd hf (h e he)⟩
  · rw [if_neg hsentinel]
    exact ⟨fun _ e he hf => hsentinel ⟨e, he, hf⟩, fun _ => rfl⟩

/-- An object without statistics and with one report entry, which has no names. -/
def oneEntry (formatter : Formatter) : Object where
  enabled := true
  stats := []
  reportEntries := [([], ⟨[], formatter⟩)]
  stats_sorted := .nil
  entries_sorted := List.pairwise_singleton _ _
  stats_lt := Nat.two_pow_pos 64
  stat_name_lt := fun _ h => nomatch h
  entries_lt := Nat.one_lt_two_pow (by decide)
  entry_name_lt := by simp
  names_lt := by simp
  name_lt := by simp

/-- An entry with the sentinel is written and not read. -/
theorem sentinel_refused :
    deserialize (serialize (oneEntry .sentinel).toMembers) = .error .formatterOutOfRange := by
  decide

end Rapidsmpf.Statistics
