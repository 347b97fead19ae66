import Mathlib
import Rapidsmpf.Lib.Traced
import Rapidsmpf.Statistics.Serialization

/-!
# What reading statistics may touch

`Statistics::deserialize` once more, over positions in its input, with the events that a memory
checker would see: every copy from the input, every reservation, and every container that grows.
`deserialize_at_follows` says that it computes what `deserialize` does, unless a reservation fails.
The lengths and counts are checked against the rest of the input before they are used, but for one:
the names of a report entry are reserved as announced. `safe_iff` says for which inputs this does
no harm.
-/

namespace Rapidsmpf.Statistics

open LittleEndian Codec Fallible

/-! ## The code -/

/-- What can be seen of the memory: a copy of `width` bytes from a position of the input, a
reservation of a number of elements, a container that has grown to a number of elements. -/
inductive Event where
  | read (pos width : Nat)
  | reserve (n : Nat)
  | grow (n : Nat)
deriving DecidableEq

/-- What comes out of `deserialize`: a `std::invalid_argument`, the `std::length_error` of a vector
and the `std::bad_alloc` of its allocator. -/
inductive Thrown where
  | invalidArgument (e : Error)
  | lengthError
  | badAlloc
deriving DecidableEq

/-- The `max_size` of a `std::vector<std::string>`, with strings of 32 bytes. -/
def maxSize : Nat := (2 ^ 63 - 1) / 32

/-- A span of the input, given by its beginning, from which a value is read. -/
abbrev SpanReader (α : Type) := Nat → Traced Event Thrown (α × Nat)

section

variable (input : Bytes) (available : Nat → Bool)

/-- `read_pod` of an unsigned integer of a number of bytes. -/
def readPodAt (w : Nat) : SpanReader Nat := fun data => do
  .check (w ≤ input.length - data) (.invalidArgument .truncatedStatistics)
  .note (.read data w)
  pure (readAt data w input, data + w)

/-- `read_string`. -/
def readStringAt (len : Nat) : SpanReader Bytes := fun data => do
  .check (len ≤ input.length - data) (.invalidArgument .truncatedStatistics)
  .note (.read data len)
  .note (.grow len)
  pure ((input.drop data).take len, data + len)

/-- A length and a string. -/
def readNameAt : SpanReader Bytes := fun data => do
  let (len, data) ← readPodAt input 8 data
  readStringAt input len data

/-- `Stat::deserialize`. -/
def Stat.deserializeAt : SpanReader Stat := fun data => do
  .check (statSize ≤ input.length - data) (.invalidArgument .truncatedStat)
  .note (.read data 8)
  let count := readAt data 8 input
  let data := data + 8
  .note (.read data 8)
  let value := readAt data 8 input
  let data := data + 8
  .note (.read data 8)
  let max := readAt data 8 input
  pure (⟨.ofNat count, .ofNat value, .ofNat max⟩, data + 8)

/-- `reserve` of a `std::vector<std::string>`. -/
def reserveNames (n : Nat) : Traced Event Thrown PUnit := do
  .note (.reserve n)
  .check (n ≤ maxSize) .lengthError
  .check (available n = true) .badAlloc

/-- One round of the loop over the statistics. -/
def readStatAt (stats : List (Bytes × Stat)) : SpanReader (List (Bytes × Stat)) := fun data => do
  let (name, data) ← readNameAt input data
  let (stat, data) ← Stat.deserializeAt input data
  let stats := emplace stats name stat
  .note (.grow stats.length)
  pure (stats, data)

/-- One round of the loop over the names of a report entry. -/
def readStatNameAt (names : List Bytes) : SpanReader (List Bytes) := fun data => do
  let (name, data) ← readNameAt input data
  .note (.grow (names ++ [name]).length)
  pure (names ++ [name], data)

/-- One round of the loop over the report entries. -/
def readEntryAt (entries : List (Bytes × ReportEntry)) :
    SpanReader (List (Bytes × ReportEntry)) := fun data => do
  let (name, data) ← readNameAt input data
  let (fmt, data) ← readPodAt input 1 data
  .check (fmt < Formatter.sentinel.toByte.toNat) (.invalidArgument .formatterOutOfRange)
  let formatter := Formatter.ofByte (.ofNat fmt)
  let (numStatNames, data) ← readPodAt input 8 data
  reserveNames available numStatNames
  let (statNames, data) ←
    Traced.loop (fun _ s => readStatNameAt input s.1 s.2) numStatNames 0 ([], data)
  let entries := emplace entries name ⟨statNames, formatter⟩
  .note (.grow entries.length)
  pure (entries, data)

/-- `Statistics::deserialize`. -/
def deserializeAt : Traced Event Thrown Members := do
  let (enabled, data) ← readPodAt input 1 0
  let (numStats, data) ← readPodAt input 8 data
  let (stats, data) ← Traced.loop (fun _ s => readStatAt input s.1 s.2) numStats 0 ([], data)
  let (numEntries, data) ← readPodAt input 8 data
  let (entries, _) ←
    Traced.loop (fun _ s => readEntryAt input available s.1 s.2) numEntries 0 ([], data)
  pure ⟨enabled != 0, stats, entries⟩

end

/-! ## The same result as without events -/

section

variable {input : Bytes} {available : Nat → Bool} {α α' β β' : Type}

/-- A computation ends with a related value or the same exception as another one, unless a
reservation fails. -/
inductive Follows (R : α → α' → Prop) : Except Thrown α → Except Error α' → Prop where
  | value {a : α} {a' : α'} (h : R a a') : Follows R (.ok a) (.ok a')
  | refused (e : Error) : Follows R (.error (.invalidArgument e)) (.error e)
  | lengthError (r : Except Error α') : Follows R (.error .lengthError) r
  | badAlloc (r : Except Error α') : Follows R (.error .badAlloc) r

/-- The same value, and the span that is the rest of the input. -/
def SameSpan (input : Bytes) (s : α × Nat) (s' : α × Bytes) : Prop :=
  s.1 = s'.1 ∧ s.2 ≤ input.length ∧ s'.2 = input.drop s.2

theorem Follows.bind {R : α → α' → Prop} {S : β → β' → Prop} {m : Traced Event Thrown α}
    {r : Except Error α'} {f : α → Traced Event Thrown β} {g : α' → Except Error β'}
    (hm : Follows R m.outcome r) (hf : ∀ a a', R a a' → Follows S (f a).outcome (g a')) :
    Follows S (m >>= f).outcome (r >>= g) := by
  rw [Traced.outcome_bind]
  generalize m.outcome = x at hm
  cases hm with
  | value h => exact hf _ _ h
  | refused e => exact .refused e
  | lengthError => exact .lengthError _
  | badAlloc => exact .badAlloc _

/-- Reading goes on behind what was read. -/
theorem Follows.read {S : β → β' → Prop} {m : Traced Event Thrown (α × Nat)}
    {r : Except Error (α × Bytes)} {f : α × Nat → Traced Event Thrown β}
    {g : α × Bytes → Except Error β'} (hm : Follows (SameSpan input) m.outcome r)
    (hf : ∀ a data, data ≤ input.length →
      Follows S (f (a, data)).outcome (g (a, input.drop data))) :
    Follows S (m >>= f).outcome (r >>= g) := by
  refine hm.bind fun s s' hs => ?_
  obtain ⟨a, data⟩ := s
  obtain ⟨a', rest⟩ := s'
  obtain ⟨rfl, hdata, rfl⟩ : a = a' ∧ data ≤ input.length ∧ rest = input.drop data := hs
  exact hf a data hdata

/-- A check at the head of a sequence. -/
theorem Follows.check {R : α → α' → Prop} {p : Prop} [Decidable p] {e : Error}
    {f : PUnit → Traced Event Thrown α} {r : Except Error α'}
    (hp : p → Follows R (f ⟨⟩).outcome r) (hn : ¬ p → r = .error e) :
    Follows R (Traced.check p (.invalidArgument e) >>= f).outcome r := by
  rw [Traced.outcome_bind, Traced.outcome_check]
  split
  · next h => exact hp h
  · next h =>
      rw [hn h]
      exact .refused e

theorem Follows.span (a : α) {data : Nat} (h : data ≤ input.length) :
    Follows (SameSpan input) (.ok (a, data)) (.ok (a, input.drop data)) :=
  .value ⟨rfl, h, rfl⟩

theorem readAt_drop (input : Bytes) (data w : Nat) :
    readAt 0 w (input.drop data) = readAt data w input := rfl

theorem read_pod_at_follows (w : Nat) {data : Nat} (h : data ≤ input.length) :
    Follows (SameSpan input) (readPodAt input w data).outcome (readPod w (input.drop data)) := by
  rw [readPodAt, readPod, List.length_drop]
  refine Follows.check (fun hw => ?_) fun hw => if_neg hw
  rw [if_pos hw, List.drop_drop]
  exact .span _ (by omega)

theorem read_string_at_follows (len : Nat) {data : Nat} (h : data ≤ input.length) :
    Follows (SameSpan input) (readStringAt input len data).outcome
      (readString len (input.drop data)) := by
  rw [readStringAt, readString, List.length_drop]
  refine Follows.check (fun hlen => ?_) fun hlen => if_neg hlen
  rw [if_pos hlen, List.drop_drop]
  exact .span _ (by omega)

theorem read_name_at_follows {data : Nat} (h : data ≤ input.length) :
    Follows (SameSpan input) (readNameAt input data).outcome (readName (input.drop data)) :=
  (read_pod_at_follows 8 h).read fun len _ h => read_string_at_follows len h

theorem stat_deserialize_at_follows {data : Nat} (h : data ≤ input.length) :
    Follows (SameSpan input) (Stat.deserializeAt input data).outcome
      (Stat.deserialize (input.drop data)) := by
  rw [Stat.deserializeAt, Stat.deserialize, List.length_drop]
  refine Follows.check (fun hsize => ?_) fun hsize => if_neg hsize
  rw [if_pos hsize]
  rw [statSize] at hsize
  simp only [List.drop_drop, readAt_drop]
  exact .span _ (by omega)

/-- A loop of readers. -/
theorem loop_follows {step : β → SpanReader β} {step' : β → Reader Error β}
    (hstep : ∀ b data, data ≤ input.length →
      Follows (SameSpan input) (step b data).outcome (step' b (input.drop data)))
    (n i : Nat) (b : β) {data : Nat} (h : data ≤ input.length) :
    Follows (SameSpan input) (Traced.loop (fun _ s => step s.1 s.2) n i (b, data)).outcome
      (readLoop step' n b (input.drop data)) := by
  induction n generalizing i b data with
  | zero => exact .span b h
  | succ n ih =>
      have hloop : readLoop step' (n + 1) b (input.drop data) =
          step' b (input.drop data) >>= fun s => readLoop step' n s.1 s.2 := by
        rw [readLoop]
        cases step' b (input.drop data) <;> rfl
      rw [hloop, Traced.loop]
      exact (hstep b data h).read fun b' _ h' => ih (i + 1) b' h'

theorem read_stat_at_follows (stats : List (Bytes × Stat)) {data : Nat} (h : data ≤ input.length) :
    Follows (SameSpan input) (readStatAt input stats data).outcome
      (readStat stats (input.drop data)) :=
  (read_name_at_follows h).read fun _ _ h =>
    (stat_deserialize_at_follows h).read fun _ _ h => .span _ h

theorem read_stat_name_at_follows (names : List Bytes) {data : Nat} (h : data ≤ input.length) :
    Follows (SameSpan input) (readStatNameAt input names data).outcome
      (readStatName names (input.drop data)) :=
  (read_name_at_follows h).read fun _ _ h => .span _ h

/-- A reservation fails for good, or is of no consequence. -/
theorem Follows.reserve {n : Nat} {f : PUnit → Traced Event Thrown (β × Nat)}
    {r : Except Error (β × Bytes)} (h : Follows (SameSpan input) (f ⟨⟩).outcome r) :
    Follows (SameSpan input) (reserveNames available n >>= f).outcome r := by
  simp only [reserveNames, Traced.outcome_bind, Traced.outcome_note, Traced.outcome_check]
  show Follows (SameSpan input) ((if n ≤ maxSize then _ else _) >>= _ >>= _) r
  by_cases hn : n ≤ maxSize
  · by_cases hmemory : available n = true
    · rw [if_pos hn, if_pos hmemory]
      exact h
    · rw [if_pos hn, if_neg hmemory]
      exact .badAlloc _
  · rw [if_neg hn]
    exact .lengthError _

theorem read_entry_at_follows (entries : List (Bytes × ReportEntry)) {data : Nat}
    (h : data ≤ input.length) :
    Follows (SameSpan input) (readEntryAt input available entries data).outcome
      (readEntry entries (input.drop data)) := by
  refine (read_name_at_follows h).read fun name _ h => ?_
  refine (read_pod_at_follows 1 h).read fun fmt _ h => ?_
  refine Follows.check (fun hfmt => ?_) fun hfmt => if_pos (Nat.not_lt.mp hfmt)
  dsimp only
  rw [if_neg (Nat.not_le.mpr hfmt)]
  refine (read_pod_at_follows 8 h).read fun n _ h => ?_
  refine Follows.reserve ?_
  exact (loop_follows (fun names _ h => read_stat_name_at_follows names h) n 0 [] h).read
    fun names _ h => .span _ h

/-- `deserializeAt` ends as `deserialize` does, unless a reservation fails. -/
theorem deserialize_at_follows (input : Bytes) (available : Nat → Bool) :
    Follows Eq (deserializeAt input available).outcome (deserialize input) := by
  have hstart := @read_pod_at_follows input 1 0 (Nat.zero_le _)
  rw [List.drop_zero] at hstart
  refine hstart.read fun enabled _ h => ?_
  refine (read_pod_at_follows 8 h).read fun n _ h => ?_
  refine (loop_follows (fun stats _ h => read_stat_at_follows stats h) n 0 [] h).read
    fun stats _ h => ?_
  refine (read_pod_at_follows 8 h).read fun n _ h => ?_
  exact (loop_follows (fun entries _ h => read_entry_at_follows entries h) n 0 [] h).read
    fun entries _ _ => .value rfl

/-! ## What is seen of the memory -/

/-- The event stays within the length of the input. -/
def Good (input : Bytes) : Event → Prop
  | .read pos width => pos + width ≤ input.length
  | .reserve n => n ≤ input.length
  | .grow n => n ≤ input.length

instance (input : Bytes) : DecidablePred (Good input)
  | .read _ _ => inferInstanceAs (Decidable (_ ≤ _))
  | .reserve _ => inferInstanceAs (Decidable (_ ≤ _))
  | .grow _ => inferInstanceAs (Decidable (_ ≤ _))

/-- The exception is a `std::invalid_argument`. -/
def Invalid (x : Thrown) : Prop := ∃ e, x = .invalidArgument e

/-- The bytes between two positions. -/
theorem eq_add_length {data data' : Nat} {bs : Bytes} (h : data ≤ input.length)
    (h' : data' ≤ input.length) (heq : input.drop data = bs ++ input.drop data') :
    data' = data + bs.length := by
  have hlength := congrArg List.length heq
  rw [List.length_drop, List.length_append, List.length_drop] at hlength
  omega

theorem read_pod_at_ensures (w : Nat) {data : Nat} (h : data ≤ input.length) :
    (readPodAt input w data).Ensures (Good input) Invalid fun s => s.2 ≤ input.length ∧
      s.1 < 256 ^ w ∧ input.drop data = toBytes w s.1 ++ input.drop s.2 := by
  refine .check_bind (fun _ => ⟨_, rfl⟩) fun hw => ?_
  have hread : data + w ≤ input.length := by omega
  refine .note_bind hread (.pure ⟨hread, read_at_lt data w input, ?_⟩)
  rw [to_bytes_read_at hread, ← List.drop_drop, List.take_append_drop]

theorem read_string_at_ensures (len : Nat) {data : Nat} (h : data ≤ input.length) :
    (readStringAt input len data).Ensures (Good input) Invalid fun s => s.2 ≤ input.length ∧
      s.1.length = len ∧ input.drop data = s.1 ++ input.drop s.2 := by
  refine .check_bind (fun _ => ⟨_, rfl⟩) fun hlen => ?_
  have hread : data + len ≤ input.length := by omega
  have hgrow : len ≤ input.length := by omega
  refine .note_bind hread (.note_bind hgrow (.pure ⟨hread, ?_, ?_⟩))
  · rw [List.length_take, List.length_drop]
    omega
  · rw [← List.drop_drop, List.take_append_drop]

theorem read_name_at_ensures {data : Nat} (h : data ≤ input.length) :
    (readNameAt input data).Ensures (Good input) Invalid fun s => s.2 ≤ input.length ∧
      s.1.length < 2 ^ 64 ∧ input.drop data = nameImage s.1 ++ input.drop s.2 := by
  refine (read_pod_at_ensures 8 h).bind fun s hs => ?_
  obtain ⟨len, data'⟩ := s
  obtain ⟨h', hlt, hlen⟩ := hs
  refine (read_string_at_ensures len h').mono fun s hs => ?_
  obtain ⟨h'', hlength, hstring⟩ := hs
  refine ⟨h'', hlength ▸ hlt, ?_⟩
  rw [hlen, hstring, nameImage, hlength, List.append_assoc]

theorem stat_deserialize_at_ensures {data : Nat} (h : data ≤ input.length) :
    (Stat.deserializeAt input data).Ensures (Good input) Invalid fun s => s.2 ≤ input.length ∧
      input.drop data = statImage s.1 ++ input.drop s.2 := by
  refine .check_bind (fun _ => ⟨_, rfl⟩) fun hsize => ?_
  rw [statSize] at hsize
  have hcount : data + 8 ≤ input.length := by omega
  have hvalue : data + 8 + 8 ≤ input.length := by omega
  have hmax : data + 8 + 8 + 8 ≤ input.length := by omega
  refine .note_bind hcount (.note_bind hvalue (.note_bind hmax (.pure ⟨hmax, ?_⟩)))
  have hfield : ∀ pos, (UInt64.ofNat (readAt pos 8 input)).toNat = readAt pos 8 input :=
    fun pos => Nat.mod_eq_of_lt (read_at_lt pos 8 input)
  rw [statImage, hfield, hfield, hfield, to_bytes_read_at hcount, to_bytes_read_at hvalue,
    to_bytes_read_at hmax, List.append_assoc, List.append_assoc]
  simp only [← List.drop_drop, List.take_append_drop]

/-- Loop rule for readers: what was read so far is the encoding of a list, and no container has
more elements than bytes were read. -/
theorem loop_ensures {γ : Type} {step : β → SpanReader β} (size : β → Nat) (enc : γ → Bytes)
    (T : List γ → β → Prop) {n start : Nat} {b : β} (hstart : start ≤ input.length)
    (hsize : size b = 0) (hT : T [] b)
    (hstep : ∀ l b data, data ≤ input.length → size b ≤ data → l.length < n → T l b →
      input.drop start = l.flatMap enc ++ input.drop data →
      (step b data).Ensures (Good input) Invalid fun s => s.2 ≤ input.length ∧ size s.1 ≤ s.2 ∧
        ∃ c, T (l ++ [c]) s.1 ∧ input.drop data = enc c ++ input.drop s.2) :
    (Traced.loop (fun _ s => step s.1 s.2) n 0 (b, start)).Ensures (Good input) Invalid
      fun s => s.2 ≤ input.length ∧ ∃ l, l.length = n ∧ T l s.1 ∧
        input.drop start = l.flatMap enc ++ input.drop s.2 := by
  refine Traced.Ensures.mono (Traced.Ensures.loop (I := fun i (s : β × Nat) =>
    s.2 ≤ input.length ∧ size s.1 ≤ s.2 ∧ ∃ l, l.length = i ∧ T l s.1 ∧
      input.drop start = l.flatMap enc ++ input.drop s.2) ?_ ?_) fun s hs => ?_
  · exact ⟨hstart, hsize.le.trans (Nat.zero_le start), [], rfl, hT, rfl⟩
  · rintro i ⟨b, data⟩ - hi ⟨hdata, hb, l, hl, hT, hfront⟩
    refine (hstep l b data hdata hb (by omega) hT hfront).mono fun s hs => ?_
    obtain ⟨hs, hgrown, c, hT', hread⟩ := hs
    refine ⟨hs, hgrown, l ++ [c], ?_, hT', ?_⟩
    · rw [List.length_append, hl, List.length_singleton]
    · rw [hfront, hread, List.flatMap_append, List.flatMap_singleton, List.append_assoc]
  · rw [Nat.zero_add] at hs
    exact ⟨hs.1, hs.2.2⟩

theorem length_emplace_le {γ : Type} (m : List (Bytes × γ)) (key : Bytes) (c : γ) :
    (emplace m key c).length ≤ m.length + 1 := by
  induction m with
  | nil => exact le_rfl
  | cons e m ih =>
      rw [emplace]
      split
      · exact le_rfl
      · split
        · exact Nat.succ_le_succ ih
        · exact Nat.le_succ _

theorem read_stat_at_ensures {stats : List (Bytes × Stat)} {data : Nat} (h : data ≤ input.length)
    (hstats : stats.length ≤ data) :
    (readStatAt input stats data).Ensures (Good input) Invalid fun s => s.2 ≤ input.length ∧
      s.1.length ≤ s.2 ∧ ∃ e : Bytes × Stat, e.1.length < 2 ^ 64 ∧
        input.drop data = namedStatImage e ++ input.drop s.2 := by
  refine (read_name_at_ensures h).bind fun s hs => ?_
  obtain ⟨name, data₁⟩ := s
  obtain ⟨h₁, hlt, hname⟩ := hs
  refine (stat_deserialize_at_ensures h₁).bind fun s hs => ?_
  obtain ⟨stat, data₂⟩ := s
  obtain ⟨h₂, hstat⟩ := hs
  have hread : input.drop data = namedStatImage (name, stat) ++ input.drop data₂ := by
    rw [hname, hstat, namedStatImage, List.append_assoc]
  have hlength := eq_add_length h h₂ hread
  have hone : 1 ≤ (namedStatImage (name, stat)).length := by
    simp only [namedStatImage, nameImage, List.length_append, length_toBytes]
    omega
  have hgrown := length_emplace_le stats name stat
  have hbound : (emplace stats name stat).length ≤ data₂ := by omega
  exact .note_bind (hbound.trans h₂) (.pure ⟨h₂, hbound, (name, stat), hlt, hread⟩)

theorem read_stat_name_at_ensures {names : List Bytes} {data : Nat} (h : data ≤ input.length)
    (hnames : names.length ≤ data) :
    (readStatNameAt input names data).Ensures (Good input) Invalid fun s => s.2 ≤ input.length ∧
      s.1.length ≤ s.2 ∧ ∃ name : Bytes, (name.length < 2 ^ 64 ∧ s.1 = names ++ [name]) ∧
        input.drop data = nameImage name ++ input.drop s.2 := by
  refine (read_name_at_ensures h).bind fun s hs => ?_
  obtain ⟨name, data₁⟩ := s
  obtain ⟨h₁, hlt, hname⟩ := hs
  have hlength := eq_add_length h h₁ hname
  have hbound : (names ++ [name]).length ≤ data₁ := by
    simp only [nameImage, List.length_append, length_toBytes, List.length_singleton] at hlength ⊢
    omega
  exact .note_bind (hbound.trans h₁) (.pure ⟨h₁, hbound, name, ⟨hlt, rfl⟩, hname⟩)

theorem reserve_names_ensures {n : Nat} (hn : n ≤ input.length) (hsize : n ≤ maxSize)
    (havailable : available n = true) :
    (reserveNames available n).Ensures (Good input) Invalid fun _ => True := by
  refine .note_bind hn (.check_bind (fun h => absurd hsize h) fun _ => ?_)
  rw [Traced.check, if_pos havailable]
  exact .pure trivial

/-- The names of a report entry. -/
theorem read_stat_names_ensures {data n : Nat} (h : data ≤ input.length) :
    (Traced.loop (fun _ s => readStatNameAt input s.1 s.2) n 0 ([], data)).Ensures (Good input)
      Invalid fun s => s.2 ≤ input.length ∧ s.1.length = n ∧ (∀ name ∈ s.1, name.length < 2 ^ 64) ∧
        input.drop data = s.1.flatMap nameImage ++ input.drop s.2 := by
  refine Traced.Ensures.mono (loop_ensures List.length nameImage
    (fun (l names : List Bytes) => names = l ∧ ∀ name ∈ l, name.length < 2 ^ 64) h rfl
    ⟨rfl, fun _ hname => nomatch hname⟩ ?_) fun s hs => ?_
  · rintro l names data hdata hsize - ⟨rfl, hlt⟩ -
    refine (read_stat_name_at_ensures hdata hsize).mono fun s hs => ?_
    obtain ⟨hs, hgrown, name, ⟨hname, heq⟩, hread⟩ := hs
    refine ⟨hs, hgrown, name, ⟨heq, fun name' hname' => ?_⟩, hread⟩
    rcases List.mem_append.mp hname' with hold | hnew
    · exact hlt name' hold
    · rw [List.mem_singleton.mp hnew]
      exact hname
  · obtain ⟨hs, l, hlength, ⟨heq, hlt⟩, hread⟩ := hs
    rw [heq]
    exact ⟨hs, hlength, hlt, hread⟩

end

/-! ## Announced names -/

/-- A report entry for which a number `n` of names is read: the statistics and the report entries
before it are complete, and its formatter is in range. -/
structure Announcement (input : Bytes) (n : Nat) where
  flag : UInt8
  stats : List (Bytes × Stat)
  numEntries : Nat
  entries : List (Bytes × ReportEntry)
  name : Bytes
  formatter : Formatter
  rest : Bytes
  input_eq : input = [flag] ++ (toBytes 8 stats.length ++ (stats.flatMap namedStatImage ++
    (toBytes 8 numEntries ++ (entries.flatMap entryImage ++
      (nameImage name ++ ([formatter.toByte] ++ (toBytes 8 n ++ rest)))))))
  stats_lt : stats.length < 2 ^ 64
  stat_name_lt : ∀ e ∈ stats, e.1.length < 2 ^ 64
  num_entries_lt : numEntries < 2 ^ 64
  entries_lt : entries.length < numEntries
  entries_fit : ∀ e ∈ entries, EntryFits e ∧ e.2.formatter ≠ .sentinel
  name_lt : name.length < 2 ^ 64
  formatter_ne : formatter ≠ .sentinel
  lt : n < 2 ^ 64

/-- No report entry announces more names than there are bytes in the input, or than a vector of
strings may hold. -/
def Modest (input : Bytes) : Prop :=
  ∀ n, Announcement input n → n ≤ input.length ∧ n ≤ maxSize

/-- A run of `deserialize` that is safe: it returns or throws a `std::invalid_argument`, nothing is
read behind the input, and no container is reserved or filled beyond its length. -/
structure Safe (input : Bytes) (m : Traced Event Thrown Members) : Prop where
  throws : ∀ x, m.outcome = .error x → ∃ e, x = .invalidArgument e
  reads : ∀ pos width, .read pos width ∈ m.events → pos + width ≤ input.length
  reserves : ∀ n, .reserve n ∈ m.events → n ≤ input.length
  grows : ∀ n, .grow n ∈ m.events → n ≤ input.length

section

variable {input : Bytes} {available : Nat → Bool}

/-- The bytes of the formatters in range. -/
theorem to_byte_of_byte {b : UInt8} (h : b < Formatter.sentinel.toByte) :
    (Formatter.ofByte b).toByte = b ∧ Formatter.ofByte b ≠ .sentinel := by
  have hcases : b = 0 ∨ b = 1 ∨ b = 2 ∨ b = 3 ∨ b = 4 ∨ b = 5 := by
    simp only [Formatter.toByte, UInt8.lt_iff_toNat_lt, ← UInt8.toNat_inj,
      UInt8.reduceToNat] at h ⊢
    omega
  rcases hcases with rfl | rfl | rfl | rfl | rfl | rfl <;> decide

/-- One report entry, if no more names are announced for it than can be reserved. -/
theorem read_entry_at_ensures {entries : List (Bytes × ReportEntry)} {data : Nat}
    (havailable : ∀ n, n ≤ input.length → available n = true) (h : data ≤ input.length)
    (hentries : entries.length ≤ data)
    (hmodest : ∀ (name : Bytes) (formatter : Formatter) (n : Nat) (rest : Bytes),
      input.drop data = nameImage name ++ ([formatter.toByte] ++ (toBytes 8 n ++ rest)) →
      name.length < 2 ^ 64 → formatter ≠ .sentinel → n < 2 ^ 64 →
        n ≤ input.length ∧ n ≤ maxSize) :
    (readEntryAt input available entries data).Ensures (Good input) Invalid fun s =>
      s.2 ≤ input.length ∧ s.1.length ≤ s.2 ∧ ∃ e : Bytes × ReportEntry,
        (EntryFits e ∧ e.2.formatter ≠ .sentinel) ∧
          input.drop data = entryImage e ++ input.drop s.2 := by
  refine (read_name_at_ensures h).bind fun s hs => ?_
  obtain ⟨name, data₁⟩ := s
  obtain ⟨h₁, hnameLt, hname⟩ := hs
  refine (read_pod_at_ensures 1 h₁).bind fun s hs => ?_
  obtain ⟨fmt, data₂⟩ := s
  obtain ⟨h₂, -, hfmt⟩ := hs
  refine .check_bind (fun _ => ⟨_, rfl⟩) fun hrange => ?_
  have hbyte : UInt8.ofNat fmt < Formatter.sentinel.toByte := by
    rw [UInt8.lt_iff_toNat_lt, UInt8.toNat_ofNat']
    exact (Nat.mod_le _ _).trans_lt hrange
  obtain ⟨hformatter, hne⟩ := to_byte_of_byte hbyte
  refine (read_pod_at_ensures 8 h₂).bind fun s hs => ?_
  obtain ⟨n, data₃⟩ := s
  obtain ⟨h₃, hlt, hn⟩ := hs
  have hhead : input.drop data = nameImage name ++ ([(Formatter.ofByte (.ofNat fmt)).toByte] ++
      (toBytes 8 n ++ input.drop data₃)) := by
    rw [hname, hfmt, hn, hformatter]
    rfl
  obtain ⟨hlength, hsize⟩ := hmodest name _ n _ hhead hnameLt hne hlt
  refine (reserve_names_ensures hlength hsize (havailable n hlength)).bind fun _ _ => ?_
  refine (read_stat_names_ensures h₃).bind fun s hs => ?_
  obtain ⟨statNames, data₄⟩ := s
  obtain ⟨h₄, hcount, hnames, hread⟩ := hs
  have hentry : input.drop data =
      entryImage (name, ⟨statNames, .ofByte (.ofNat fmt)⟩) ++ input.drop data₄ := by
    rw [hhead, hread, ← hcount]
    simp only [entryImage, List.append_assoc]
  have hmoved := eq_add_length h h₄ hentry
  have hone : 1 ≤ (entryImage (name, ⟨statNames, .ofByte (.ofNat fmt)⟩)).length := by
    simp only [entryImage, nameImage, List.length_append, length_toBytes]
    omega
  have hgrown := length_emplace_le entries name ⟨statNames, .ofByte (.ofNat fmt)⟩
  have hbound : (emplace entries name ⟨statNames, .ofByte (.ofNat fmt)⟩).length ≤ data₄ := by
    omega
  refine .note_bind (hbound.trans h₄) (.pure ⟨h₄, hbound, _, ⟨⟨hnameLt, ?_, hnames⟩, hne⟩, hentry⟩)
  exact hcount ▸ hlt

/-- Inputs that announce no more names than can be reserved are safe. -/
theorem deserialize_at_ensures (havailable : ∀ n, n ≤ input.length → available n = true)
    (hmodest : Modest input) :
    (deserializeAt input available).Ensures (Good input) Invalid fun _ => True := by
  have hstart := read_pod_at_ensures 1 (Nat.zero_le input.length)
  rw [List.drop_zero] at hstart
  refine hstart.bind fun s hs => ?_
  obtain ⟨enabled, data₁⟩ := s
  obtain ⟨h₁, -, hflag⟩ := hs
  refine (read_pod_at_ensures 8 h₁).bind fun s hs => ?_
  obtain ⟨numStats, data₂⟩ := s
  obtain ⟨h₂, hstatsLt, hnumStats⟩ := hs
  refine Traced.Ensures.bind (loop_ensures List.length namedStatImage
    (fun (l : List (Bytes × Stat)) _ => ∀ e ∈ l, e.1.length < 2 ^ 64) h₂ rfl
    (fun _ he => absurd he List.not_mem_nil) ?_) fun s hs => ?_
  · intro l stats data hdata hsize _ hl _
    refine (read_stat_at_ensures hdata hsize).mono fun s hs => ?_
    obtain ⟨hs, hgrown, e, he, hread⟩ := hs
    refine ⟨hs, hgrown, e, fun e' he' => ?_, hread⟩
    rcases List.mem_append.mp he' with hold | hnew
    · exact hl e' hold
    · rw [List.mem_singleton.mp hnew]
      exact he
  obtain ⟨stats, data₃⟩ := s
  obtain ⟨h₃, statList, hlength, hstatNames, hstats⟩ := hs
  refine (read_pod_at_ensures 8 h₃).bind fun s hs => ?_
  obtain ⟨numEntries, data₄⟩ := s
  obtain ⟨h₄, hentriesLt, hnumEntries⟩ := hs
  refine Traced.Ensures.bind (loop_ensures List.length entryImage
    (fun (l : List (Bytes × ReportEntry)) _ =>
      ∀ e ∈ l, EntryFits e ∧ e.2.formatter ≠ .sentinel) h₄ rfl
    (fun _ he => absurd he List.not_mem_nil) ?_) fun s hs => .pure trivial
  intro l entries data hdata hsize hl hfit hprefix
  refine (read_entry_at_ensures havailable hdata hsize ?_).mono fun s hs => ?_
  · -- all that was read so far precedes the announcement
    intro name formatter n rest hhead hname hne hlt
    refine hmodest n ⟨.ofNat enabled, statList, numEntries, l, name, formatter, rest, ?_,
      hlength ▸ hstatsLt, hstatNames, hentriesLt, hl, hfit, hname, hne, hlt⟩
    rw [← hhead, ← hprefix, ← hnumEntries, ← hstats, hlength, ← hnumStats]
    exact hflag
  · obtain ⟨hs, hgrown, e, he, hread⟩ := hs
    refine ⟨hs, hgrown, e, fun e' he' => ?_, hread⟩
    rcases List.mem_append.mp he' with hold | hnew
    · exact hfit e' hold
    · rw [List.mem_singleton.mp hnew]
      exact he

/-! ## Announced names are reserved -/

/-- A reservation has failed. -/
def Stopped {α : Type} (r : Except Thrown α) : Prop :=
  r = .error .lengthError ∨ r = .error .badAlloc

theorem Stopped.bind {α β : Type} {m : Traced Event Thrown α} {f : α → Traced Event Thrown β}
    (h : Stopped m.outcome) : Stopped (m >>= f).outcome :=
  h.imp Traced.outcome_of_error Traced.outcome_of_error

/-- What a reader takes off the front of a string, the reader of spans takes as well. -/
theorem Follows.ok_or_stopped {α : Type} {x : Except Thrown (α × Nat)} {data : Nat}
    {p : Reader Error α} {bs rest : Bytes} {a : α}
    (h : Follows (SameSpan input) x (p (input.drop data))) (hreads : Reads p bs a)
    (hdrop : input.drop data = bs ++ rest) :
    (∃ data', data' ≤ input.length ∧ x = .ok (a, data') ∧ input.drop data' = rest) ∨
      Stopped x := by
  rw [hdrop, hreads rest] at h
  cases h with
  | @value s _ hs =>
      obtain ⟨a', data'⟩ := s
      obtain ⟨rfl, hle, rfl⟩ : a' = a ∧ data' ≤ input.length ∧ rest = input.drop data' := hs
      exact .inl ⟨data', hle, rfl, rfl⟩
  | lengthError => exact .inr (.inl rfl)
  | badAlloc => exact .inr (.inr rfl)

/-- Readers without reservations do not stop. -/
theorem Follows.ok_of_reads {α : Type} {m : Traced Event Thrown (α × Nat)} {data : Nat}
    {p : Reader Error α} {bs rest : Bytes} {a : α} {P : α × Nat → Prop}
    (h : Follows (SameSpan input) m.outcome (p (input.drop data)))
    (hm : m.Ensures (Good input) Invalid P) (hreads : Reads p bs a)
    (hdrop : input.drop data = bs ++ rest) :
    ∃ data', data' ≤ input.length ∧ m.outcome = .ok (a, data') ∧ input.drop data' = rest := by
  rcases h.ok_or_stopped hreads hdrop with hok | hstopped
  · exact hok
  · rcases hstopped with hx | hx
    · obtain ⟨e, he⟩ := hm.throws _ hx
      cases he
    · obtain ⟨e, he⟩ := hm.throws _ hx
      cases he

/-- The number of names is reserved as announced, or more than a vector may hold. -/
theorem read_entry_at_reserves {data : Nat} (h : data ≤ input.length) {name rest : Bytes}
    {formatter : Formatter} {n : Nat} (hname : name.length < 2 ^ 64)
    (hne : formatter ≠ .sentinel) (hn : n < 2 ^ 64)
    (hdrop : input.drop data =
      nameImage name ++ ([formatter.toByte] ++ (toBytes 8 n ++ rest)))
    (entries : List (Bytes × ReportEntry)) :
    (.reserve n ∈ (readEntryAt input available entries data).events ∧ n ≤ maxSize) ∨
      Stopped (readEntryAt input available entries data).outcome := by
  obtain ⟨data₁, h₁, hread₁, hdrop₁⟩ :=
    (read_name_at_follows h).ok_of_reads (read_name_at_ensures h) (reads_name hname) hdrop
  obtain ⟨data₂, h₂, hread₂, hdrop₂⟩ := (read_pod_at_follows 1 h₁).ok_of_reads
    (read_pod_at_ensures 1 h₁) (reads_byte formatter.toByte) hdrop₁
  obtain ⟨data₃, h₃, hread₃, -⟩ := (read_pod_at_follows 8 h₂).ok_of_reads
    (read_pod_at_ensures 8 h₂) (reads_pod hn) hdrop₂
  have hcheck : (Traced.check (formatter.toByte.toNat < Formatter.sentinel.toByte.toNat)
      (.invalidArgument .formatterOutOfRange) : Traced Event Thrown PUnit).outcome = .ok ⟨⟩ := by
    rw [Traced.outcome_check, if_pos (formatter_lt hne)]
  by_cases hsize : n ≤ maxSize
  · left
    refine ⟨?_, hsize⟩
    refine Traced.mem_events_of_ok hread₁ (Traced.mem_events_of_ok hread₂
      (Traced.mem_events_of_ok hcheck (Traced.mem_events_of_ok hread₃ ?_)))
    refine Traced.mem_events_bind.mpr (.inl ?_)
    exact Traced.mem_events_bind.mpr (.inl (List.mem_singleton_self _))
  · right
    left
    have hreserve : (reserveNames available n).outcome = .error .lengthError := by
      refine (Traced.outcome_of_ok (Traced.outcome_note _)).trans (Traced.outcome_of_error ?_)
      rw [Traced.outcome_check, if_neg hsize]
    exact (Traced.outcome_of_ok hread₁).trans ((Traced.outcome_of_ok hread₂).trans
      ((Traced.outcome_of_ok hcheck).trans ((Traced.outcome_of_ok hread₃).trans
        (Traced.outcome_of_error hreserve))))

/-- The loop over the report entries gets to one behind complete ones. -/
theorem read_entries_at_reserves {before : List (Bytes × ReportEntry)} {data k : Nat}
    (hbefore : ∀ e ∈ before, EntryFits e ∧ e.2.formatter ≠ .sentinel) (hk : before.length < k)
    (h : data ≤ input.length) {name rest : Bytes} {formatter : Formatter} {n : Nat}
    (hname : name.length < 2 ^ 64) (hne : formatter ≠ .sentinel) (hn : n < 2 ^ 64)
    (hdrop : input.drop data = before.flatMap entryImage ++
      (nameImage name ++ ([formatter.toByte] ++ (toBytes 8 n ++ rest))))
    (i : Nat) (entries : List (Bytes × ReportEntry)) :
    (.reserve n ∈ (Traced.loop (fun _ s => readEntryAt input available s.1 s.2) k i
        (entries, data)).events ∧ n ≤ maxSize) ∨
      Stopped (Traced.loop (fun _ s => readEntryAt input available s.1 s.2) k i
        (entries, data)).outcome := by
  induction before generalizing data k i entries with
  | nil =>
      obtain ⟨k, rfl⟩ := Nat.exists_eq_succ_of_ne_zero (Nat.ne_of_gt hk)
      rcases read_entry_at_reserves h hname hne hn hdrop entries with ⟨hevent, hsize⟩ | hstopped
      · exact .inl ⟨Traced.mem_events_bind.mpr (.inl hevent), hsize⟩
      · exact .inr hstopped.bind
  | cons e before ih =>
      obtain ⟨k, rfl⟩ := Nat.exists_eq_succ_of_ne_zero (Nat.ne_of_gt (Nat.zero_lt_of_lt hk))
      obtain ⟨hfits, hf⟩ := hbefore e List.mem_cons_self
      rw [List.flatMap_cons, List.append_assoc] at hdrop
      rcases (read_entry_at_follows entries h).ok_or_stopped (reads_entry hfits hf entries) hdrop
        with ⟨data', h', hread, hdrop'⟩ | hstopped
      · have hrest := ih (fun e' he' => hbefore e' (List.mem_cons_of_mem e he'))
          (Nat.lt_of_succ_lt_succ hk) h' hdrop' (i + 1) (emplace entries e.1 e.2)
        rcases hrest with ⟨hevent, hsize⟩ | hstopped
        · exact .inl ⟨Traced.mem_events_of_ok hread hevent, hsize⟩
        · refine .inr ?_
          rw [Traced.loop, Traced.outcome_of_ok hread]
          exact hstopped
      · exact .inr hstopped.bind

/-- What is announced is reserved, unless a reservation fails. -/
theorem deserialize_at_reserves {n : Nat} (a : Announcement input n) :
    (.reserve n ∈ (deserializeAt input available).events ∧ n ≤ maxSize) ∨
      Stopped (deserializeAt input available).outcome := by
  obtain ⟨flag, stats, numEntries, entries, name, formatter, rest, hinput, hstats, hstatNames,
    hnumEntries, hentries, hfit, hname, hne, hn⟩ := a
  have hzero := Nat.zero_le input.length
  obtain ⟨data₁, h₁, hread₁, hdrop₁⟩ := (read_pod_at_follows 1 hzero).ok_of_reads
    (read_pod_at_ensures 1 hzero) (reads_byte flag) hinput
  obtain ⟨data₂, h₂, hread₂, hdrop₂⟩ := (read_pod_at_follows 8 h₁).ok_of_reads
    (read_pod_at_ensures 8 h₁) (reads_pod hstats) hdrop₁
  have hloop := loop_ensures (b := []) (n := stats.length) List.length namedStatImage
    (fun (_ : List (Bytes × Stat)) _ => True) h₂ rfl trivial
    fun l s data hdata hsize _ _ _ => (read_stat_at_ensures hdata hsize).mono fun s hs => by
      obtain ⟨hs, hgrown, e, -, hread⟩ := hs
      exact ⟨hs, hgrown, e, trivial, hread⟩
  obtain ⟨data₃, h₃, hread₃, hdrop₃⟩ :=
    (loop_follows (fun stats _ h => read_stat_at_follows stats h) stats.length 0 [] h₂).ok_of_reads
      hloop (reads_loop (fun b e he => reads_named_stat (hstatNames e he) b) []) hdrop₂
  obtain ⟨data₄, h₄, hread₄, hdrop₄⟩ := (read_pod_at_follows 8 h₃).ok_of_reads
    (read_pod_at_ensures 8 h₃) (reads_pod hnumEntries) hdrop₃
  rcases read_entries_at_reserves hfit hentries h₄ hname hne hn hdrop₄ 0 []
    with ⟨hevent, hsize⟩ | hstopped
  · refine .inl ⟨?_, hsize⟩
    exact Traced.mem_events_of_ok hread₁ (Traced.mem_events_of_ok hread₂
      (Traced.mem_events_of_ok hread₃ (Traced.mem_events_of_ok hread₄
        (Traced.mem_events_bind.mpr (.inl hevent)))))
  · refine .inr ?_
    rw [deserializeAt, Traced.outcome_of_ok hread₁]
    dsimp only
    rw [Traced.outcome_of_ok hread₂]
    dsimp only
    rw [Traced.outcome_of_ok hread₃]
    dsimp only
    rw [Traced.outcome_of_ok hread₄]
    exact hstopped.bind

/-- With an allocator that has room for as many strings as the input has bytes, `deserialize` is
safe exactly for the inputs that announce no more names than they have bytes, or than a vector may
hold. -/
theorem safe_iff (havailable : ∀ n, n ≤ input.length → available n = true) :
    Safe input (deserializeAt input available) ↔ Modest input := by
  constructor
  · intro hsafe n a
    rcases deserialize_at_reserves a with ⟨hevent, hsize⟩ | hstopped
    · exact ⟨hsafe.reserves n hevent, hsize⟩
    · rcases hstopped with hx | hx
      · obtain ⟨e, he⟩ := hsafe.throws _ hx
        cases he
      · obtain ⟨e, he⟩ := hsafe.throws _ hx
        cases he
  · intro hmodest
    have hensures := deserialize_at_ensures havailable hmodest
    exact ⟨hensures.throws, fun pos width hevent => hensures.events _ hevent,
      fun n hevent => hensures.events _ hevent, fun n hevent => hensures.events _ hevent⟩

end

/-- An enabled object with the statistic `a`, and the report entry `b` about it. -/
def reported : Members where
  enabled := true
  stats := [([97], ⟨2, 3, 4⟩)]
  reportEntries := [([98], ⟨[[97]], .bytes⟩)]

/-- What is stored of it. -/
def reportedBytes : Bytes :=
  [1] ++ toBytes 8 1 ++ namedStatImage ([97], ⟨2, 3, 4⟩) ++ toBytes 8 1 ++
    entryImage ([98], ⟨[[97]], .bytes⟩)

/-- An allocator with room for as many strings as `reportedBytes` has bytes. -/
def roomy (n : Nat) : Bool := decide (n ≤ reportedBytes.length)

/-- The object is read, with the names of its report entry reserved. -/
theorem reported_safe :
    (deserializeAt reportedBytes roomy).outcome = .ok reported ∧
      .reserve 1 ∈ (deserializeAt reportedBytes roomy).events ∧
      Modest reportedBytes ∧ Safe reportedBytes (deserializeAt reportedBytes roomy) := by
  have houtcome : (deserializeAt reportedBytes roomy).outcome = .ok reported := by
    decide +kernel
  have hgood : ∀ e ∈ (deserializeAt reportedBytes roomy).events, Good reportedBytes e := by
    decide +kernel
  have hmodest : Modest reportedBytes := by
    intro n a
    have hreserves : (.reserve n ∈ (deserializeAt reportedBytes roomy).events ∧ n ≤ maxSize) ∨
        Stopped (deserializeAt reportedBytes roomy).outcome := deserialize_at_reserves a
    rcases hreserves with ⟨hevent, hsize⟩ | hstopped
    · exact ⟨hgood _ hevent, hsize⟩
    · rw [houtcome] at hstopped
      rcases hstopped with h | h <;> cases h
  refine ⟨houtcome, by decide +kernel, hmodest, ?_⟩
  exact (safe_iff fun n hn => decide_eq_true hn).mpr hmodest

/-- One report entry, with an empty name, the default formatter and `2 ^ 64 - 1` names. -/
def hugeCount : Bytes :=
  [1] ++ toBytes 8 0 ++ toBytes 8 1 ++ toBytes 8 0 ++ [0] ++ toBytes 8 (2 ^ 64 - 1)

/-- The reservation throws what is not a `std::invalid_argument`. -/
theorem huge_count_throws :
    (deserializeAt hugeCount fun _ => true).outcome = .error .lengthError ∧
      .reserve (2 ^ 64 - 1) ∈ (deserializeAt hugeCount fun _ => true).events ∧
      ¬ Safe hugeCount (deserializeAt hugeCount fun _ => true) := by
  have houtcome : (deserializeAt hugeCount fun _ => true).outcome = .error .lengthError := rfl
  refine ⟨houtcome, by decide, fun hsafe => ?_⟩
  obtain ⟨e, he⟩ := hsafe.throws _ houtcome
  cases he

end Rapidsmpf.Statistics
