import Mathlib
import Rapidsmpf.Lib.Decimal
import Rapidsmpf.Bootstrap.CpuList

/-!
# The text of a CPU affinity

`get_current_cpu_affinity` of `bootstrap/utils.cpp` writes the cores of the process as a list with
ranges. The loop holds one run of cores back until it knows where the run ends. The text is read
back as the same cores, and no list of fewer entries denotes them.
-/

namespace Rapidsmpf.Bootstrap

open Decimal

/-! ## The code -/

/-- What is written for a run. -/
def writeRange (rangeStart rangeEnd : Nat) : Bytes :=
  if rangeStart = rangeEnd then print rangeStart else print rangeStart ++ 45 :: print rangeEnd

/-- The loop behind the first core, and the run that is written at its end. -/
def formatLoop : List Nat → Nat → Nat → Bytes → Option Bytes
  | [], rangeStart, rangeEnd, oss => some (oss ++ writeRange rangeStart rangeEnd)
  | core :: cores, rangeStart, rangeEnd, oss =>
      -- the sum is no `int` behind the largest one
      if rangeEnd = 2 ^ 31 - 1 then none
      else if core = rangeEnd + 1 then formatLoop cores rangeStart core oss
      else formatLoop cores core core (oss ++ writeRange rangeStart rangeEnd ++ [44])

/-- The text of some cores, if it is defined. -/
def formatCores : List Nat → Option Bytes
  | [] => some []
  | core :: cores => formatLoop cores core core []

/-- `get_current_cpu_affinity`, from what `sched_getaffinity` answers. -/
def getCurrentCpuAffinity (cpuset : Option (Finset Nat)) : Option Bytes :=
  match cpuset with
  | none => some []
  | some cpuset => formatCores ((List.range cpuSetSize).filter (· ∈ cpuset))

/-! ## Runs -/

namespace Entry

/-- The entry for a run. -/
def ofRun (start stop : Nat) : Entry :=
  if start = stop then core (print start) else range (print start) (print stop)

/-- The cores of the entry. -/
def span (e : Entry) : List Nat := List.range' e.start (e.stop + 1 - e.start)

theorem text_of_run (start stop : Nat) : (ofRun start stop).text = writeRange start stop := by
  rw [ofRun, writeRange]
  split <;> rfl

theorem start_of_run (start stop : Nat) : (ofRun start stop).start = start := by
  rw [ofRun]
  split
  · exact value_print start
  · exact value_print start

theorem stop_of_run (start stop : Nat) : (ofRun start stop).stop = stop := by
  rw [ofRun]
  split
  · next heq => exact (value_print start).trans heq
  · exact value_print stop

theorem valid_of_run {start stop : Nat} (h : start ≤ stop) : (ofRun start stop).Valid := by
  have hdigits : ∀ n, Digits (print n) := fun n => ⟨fun _ => print_digits, print_ne_nil n⟩
  rw [ofRun]
  split
  · exact hdigits start
  · refine ⟨hdigits start, hdigits stop, ?_⟩
    rw [value_print, value_print]
    exact h

/-- A run fits if it does not end with the two largest `int`s. -/
theorem fits_of_run {start stop : Nat} (hle : start ≤ stop) (hint : stop < 2 ^ 31)
    (htop : start < stop → stop ≠ 2 ^ 31 - 1) : (ofRun start stop).Fits := by
  rw [ofRun]
  split
  · next heq =>
      show value (print start) < 2 ^ 31
      rw [value_print, heq]
      exact hint
  · next hne =>
      show value (print stop) < 2 ^ 31 - 1
      rw [value_print]
      have hlt := htop (by omega)
      omega

theorem mem_span {e : Entry} {i : Nat} : i ∈ e.span ↔ e.start ≤ i ∧ i ≤ e.stop := by
  rw [span, List.mem_range'_1]
  omega

theorem cores_eq_span (e : Entry) : e.cores = e.span.map fun i : Nat => (i : Int) := by
  have hlength : ((e.stop : Int) + 1 - e.start).toNat = e.stop + 1 - e.start := by omega
  rw [cores, intRange, hlength, span, List.range'_eq_map_range, List.map_map]
  rfl

end Entry

/-- No two entries of the list could be one range, and they ascend. -/
def Apart (es : List Entry) : Prop := es.Pairwise fun e e' => e.stop + 1 < e'.start

section

variable {cores : List Nat} {es es' : List Entry}

theorem denotes_eq_span : denotes es = { i | i ∈ es.flatMap Entry.span } := by
  ext i
  show (∃ e ∈ es, e.start ≤ i ∧ i ≤ e.stop) ↔ i ∈ es.flatMap Entry.span
  simp only [List.mem_flatMap, Entry.mem_span]

theorem render_cons (e : Entry) (hne : es ≠ []) : render (e :: es) = e.text ++ 44 :: render es := by
  cases es with
  | nil => exact absurd rfl hne
  | cons e' es => simp [render]

/-- What the loop writes behind the text so far: the runs of the cores, none beside the next. -/
theorem format_loop {first last : Nat} (oss : Bytes) (hle : first ≤ last)
    (hsorted : (last :: cores).Pairwise (· < ·)) (hint : ∀ c ∈ last :: cores, c < 2 ^ 31) :
    ∃ es, formatLoop cores first last oss = some (oss ++ render es) ∧ es ≠ [] ∧
      (∀ e ∈ es, ∃ start stop, start ≤ stop ∧ e = .ofRun start stop) ∧
      (∀ e ∈ es, first ≤ e.start) ∧ Apart es ∧
      es.flatMap Entry.span = List.range' first (last + 1 - first) ++ cores := by
  induction cores generalizing first last oss with
  | nil =>
      refine ⟨[.ofRun first last], ?_, List.cons_ne_nil _ _, ?_, ?_, List.pairwise_singleton _ _,
        ?_⟩
      · rw [formatLoop, ← Entry.text_of_run]
        simp [render]
      · exact List.forall_mem_singleton.mpr ⟨first, last, hle, rfl⟩
      · exact List.forall_mem_singleton.mpr (Entry.start_of_run first last).ge
      · simp [Entry.span, Entry.start_of_run, Entry.stop_of_run]
  | cons core cores ih =>
      obtain ⟨hfirst, hsorted⟩ := List.pairwise_cons.mp hsorted
      obtain ⟨hlast, hint⟩ := List.forall_mem_cons.mp hint
      have hlt : last < core := hfirst core List.mem_cons_self
      have hcore : core < 2 ^ 31 := hint core List.mem_cons_self
      rw [formatLoop, if_neg (by omega)]
      split
      · next hnext =>
          -- the run goes on
          obtain ⟨es, hloop, hne, hruns, hstart, hapart, hspan⟩ :=
            ih oss (Nat.le_of_lt (Nat.lt_of_le_of_lt hle hlt)) hsorted hint
          refine ⟨es, hloop, hne, hruns, hstart, hapart, ?_⟩
          have hlength : core + 1 - first = last + 1 - first + 1 := by omega
          have hend : first + (last + 1 - first) = core := by omega
          rw [hspan, hlength, List.range'_1_concat, hend, List.append_assoc]
          rfl
      · next hnext =>
          obtain ⟨es, hloop, hne, hruns, hstart, hapart, hspan⟩ :=
            ih (oss ++ writeRange first last ++ [44]) (le_refl core) hsorted hint
          refine ⟨.ofRun first last :: es, ?_, List.cons_ne_nil _ _, ?_, ?_, ?_, ?_⟩
          · rw [hloop, render_cons _ hne, Entry.text_of_run]
            simp
          · exact List.forall_mem_cons.mpr ⟨⟨first, last, hle, rfl⟩, hruns⟩
          · refine List.forall_mem_cons.mpr ⟨(Entry.start_of_run first last).ge, fun e he => ?_⟩
            have hge := hstart e he
            omega
          · refine List.pairwise_cons.mpr ⟨fun e he => ?_, hapart⟩
            have hge := hstart e he
            rw [Entry.stop_of_run]
            omega
          · rw [List.flatMap_cons, hspan, Entry.span, Entry.start_of_run, Entry.stop_of_run,
              Nat.add_sub_cancel_left]
            rfl

/-- The text of some cores is a list of their runs. -/
theorem format_cores (hsorted : cores.Pairwise (· < ·)) (hint : ∀ c ∈ cores, c < 2 ^ 31) :
    ∃ es, formatCores cores = some (render es) ∧ (es = [] → cores = []) ∧
      (∀ e ∈ es, ∃ start stop, start ≤ stop ∧ e = .ofRun start stop) ∧ Apart es ∧
      es.flatMap Entry.span = cores := by
  cases cores with
  | nil => exact ⟨[], rfl, fun _ => rfl, nofun, .nil, rfl⟩
  | cons core cores =>
      obtain ⟨es, hloop, hne, hruns, -, hapart, hspan⟩ :=
        format_loop [] (le_refl core) hsorted hint
      refine ⟨es, hloop, fun hnil => absurd hnil hne, hruns, hapart, ?_⟩
      rw [hspan, Nat.add_sub_cancel_left]
      rfl

/-- A list is read back as the cores of its entries. -/
theorem parse_entries (hvalid : ∀ e ∈ es, e.Valid) (hfits : ∀ e ∈ es, e.Fits) :
    parseCpuList (render es) = some ((es.flatMap Entry.span).map fun i : Nat => (i : Int)) := by
  by_cases hne : es = []
  · rw [hne]
    rfl
  · have hwell : WellFormed (render es) es := ⟨hne, hvalid, rfl⟩
    have hcores : Entry.cores = fun e => e.span.map fun i : Nat => (i : Int) :=
      funext Entry.cores_eq_span
    rw [(parse_of_read (well_formed_ne_nil hwell) (read_of_fits hwell hfits)).1, List.map_flatMap,
      hcores]

theorem start_le_stop {e : Entry} (h : e.Valid) : e.start ≤ e.stop := by
  cases e with
  | core digits => exact le_refl _
  | range first last => exact h.2.2

theorem apart_of_mem (h : Apart es) {e e' : Entry} (he : e ∈ es) (he' : e' ∈ es) :
    e = e' ∨ e.stop + 1 < e'.start ∨ e'.stop + 1 < e.start := by
  induction h with
  | nil => cases he
  | cons hfirst _ ih =>
      rcases List.mem_cons.mp he with rfl | hmem
      · rcases List.mem_cons.mp he' with rfl | hmem'
        · exact .inl rfl
        · exact .inr (.inl (hfirst e' hmem'))
      · rcases List.mem_cons.mp he' with rfl | hmem'
        · exact .inr (.inr (hfirst e hmem))
        · exact ih hmem hmem'

/-- No list that denotes the same cores has fewer entries than one whose entries are apart. -/
theorem fewest_entries (hvalid : ∀ e ∈ es, e.Valid) (hapart : Apart es)
    (hdenotes : denotes es' = denotes es) : es.length ≤ es'.length := by
  have hle : ∀ e ∈ es, e.start ≤ e.stop := fun e he => start_le_stop (hvalid e he)
  -- in front of the start of an entry is a gap, so every list has an entry that starts there
  have hstarts : es.map Entry.start ⊆ es'.map Entry.start := by
    intro i hi
    obtain ⟨e, he, rfl⟩ := List.mem_map.mp hi
    obtain ⟨e', he', hlow, hhigh⟩ : e.start ∈ denotes es' := by
      rw [hdenotes]
      exact ⟨e, he, le_refl _, hle e he⟩
    refine List.mem_map.mpr ⟨e', he', le_antisymm hlow ?_⟩
    by_contra hlt
    obtain ⟨x, hx, hxlow, hxhigh⟩ : e.start - 1 ∈ denotes es := by
      rw [← hdenotes]
      exact ⟨e', he', by omega, by omega⟩
    have hxle := hle x hx
    have hele := hle e he
    rcases apart_of_mem hapart hx he with rfl | hbefore | hbehind
    · omega
    · omega
    · omega
  have hnodup : (es.map Entry.start).Nodup := by
    refine List.pairwise_map.mpr (hapart.imp_of_mem fun he _ hlt heq => ?_)
    have hele := hle _ he
    omega
  have hlength := (hnodup.subperm hstarts).length_le
  rwa [List.length_map, List.length_map] at hlength

/-! ## Reading the text back -/

/-- The text of ascending cores is a list of `int`s, unless the two largest are in it. -/
theorem format_fits (hsorted : cores.Pairwise (· < ·)) (hint : ∀ c ∈ cores, c < 2 ^ 31)
    (htop : ¬ (2 ^ 31 - 2 ∈ cores ∧ 2 ^ 31 - 1 ∈ cores)) :
    ∃ es, formatCores cores = some (render es) ∧ (∀ e ∈ es, e.Valid) ∧ (∀ e ∈ es, e.Fits) ∧
      Apart es ∧ es.flatMap Entry.span = cores := by
  obtain ⟨es, hformat, -, hruns, hapart, hspan⟩ := format_cores hsorted hint
  refine ⟨es, hformat, fun e he => ?_, fun e he => ?_, hapart, hspan⟩
  · obtain ⟨start, stop, hle, rfl⟩ := hruns e he
    exact Entry.valid_of_run hle
  · have hmem : ∀ i, e.start ≤ i → i ≤ e.stop → i ∈ cores := by
      intro i hlow hhigh
      rw [← hspan]
      exact List.mem_flatMap.mpr ⟨e, he, Entry.mem_span.mpr ⟨hlow, hhigh⟩⟩
    obtain ⟨start, stop, hle, rfl⟩ := hruns e he
    rw [Entry.start_of_run, Entry.stop_of_run] at hmem
    have hstop : stop ∈ cores := hmem stop hle (le_refl _)
    refine Entry.fits_of_run hle (hint stop hstop) fun hlt hlast => ?_
    exact htop ⟨hmem _ (by omega) (by omega), hlast ▸ hstop⟩

/-- A list of ascending cores, unless the two largest `int`s are in it, is read back from its text,
which has the fewest entries. -/
theorem format_round_trip (hsorted : cores.Pairwise (· < ·)) (hint : ∀ c ∈ cores, c < 2 ^ 31)
    (htop : ¬ (2 ^ 31 - 2 ∈ cores ∧ 2 ^ 31 - 1 ∈ cores)) :
    ∃ text, formatCores cores = some text ∧
      parseCpuList text = some (cores.map fun i : Nat => (i : Int)) ∧
      ∃ es, text = render es ∧ (∀ e ∈ es, e.Valid) ∧ Apart es ∧ denotes es = { i | i ∈ cores } ∧
        ∀ es', denotes es' = { i | i ∈ cores } → es.length ≤ es'.length := by
  obtain ⟨es, hformat, hvalid, hfits, hapart, hspan⟩ := format_fits hsorted hint htop
  have hdenotes : denotes es = { i | i ∈ cores } := by rw [denotes_eq_span, hspan]
  refine ⟨render es, hformat, ?_, es, rfl, hvalid, hapart, hdenotes, fun es' hsame => ?_⟩
  · rw [parse_entries hvalid hfits, hspan]
  · exact fewest_entries hvalid hapart (hsame.trans hdenotes.symm)

theorem format_round_trip_four : ∃ text, formatCores [0, 1, 2, 5] = some text ∧
    parseCpuList text = some [0, 1, 2, 5] := by
  have hsorted : ([0, 1, 2, 5] : List Nat).Pairwise (· < ·) := by decide
  obtain ⟨text, hformat, hparse, -⟩ := format_round_trip hsorted (by decide) (by decide)
  exact ⟨text, hformat, hparse⟩

/-- The range of the two largest `int`s is written, and the loop over it does not end. -/
theorem top_range_unreadable :
    ∃ text, formatCores [2 ^ 31 - 2, 2 ^ 31 - 1] = some text ∧ parseCpuList text = none := by
  exact ⟨_, rfl, rfl⟩

/-- The text of an affinity is read back as the affinity, also by the parser for masks. -/
theorem affinity_round_trip {cpuset : Finset Nat} (h : ∀ i ∈ cpuset, i < cpuSetSize)
    (hne : cpuset.Nonempty) : ∃ text, getCurrentCpuAffinity (some cpuset) = some text ∧
      (∃ cores, parseCpuList text = some cores ∧ ∀ i : Nat, (i : Int) ∈ cores ↔ i ∈ cpuset) ∧
      parseCpuListToMask text = some (true, cpuset) := by
  have hmem : ∀ i, i ∈ (List.range cpuSetSize).filter (· ∈ cpuset) ↔ i ∈ cpuset := by
    intro i
    rw [List.mem_filter, List.mem_range, decide_eq_true_eq]
    exact ⟨And.right, fun hi => ⟨h i hi, hi⟩⟩
  have hlt : ∀ i ∈ (List.range cpuSetSize).filter (· ∈ cpuset), i < 1024 :=
    fun i hi => h i ((hmem i).mp hi)
  obtain ⟨es, hformat, hvalid, hfits, -, hspan⟩ :=
    format_fits (List.pairwise_lt_range.filter _) (fun i hi => (hlt i hi).trans (by decide))
      (fun htop => absurd (hlt _ htop.1) (by decide))
  have hcores : ∀ i : Nat, (i : Int) ∈ es.flatMap Entry.cores ↔ i ∈ cpuset := by
    intro i
    rw [← hmem i, ← hspan, List.mem_flatMap, List.mem_flatMap]
    simp only [Entry.cores_eq_span, List.mem_map, Nat.cast_inj, exists_eq_right]
  have hwell : WellFormed (render es) es := by
    refine ⟨?_, hvalid, rfl⟩
    rintro rfl
    obtain ⟨i, hi⟩ := hne
    exact absurd ((hcores i).mpr hi) List.not_mem_nil
  obtain ⟨hparse, hmask⟩ := parse_of_read (well_formed_ne_nil hwell) (read_of_fits hwell hfits)
  refine ⟨render es, hformat, ⟨_, hparse, hcores⟩, ?_⟩
  have hset : (es.flatMap Entry.cores).foldl cpuSet ∅ = cpuset := by
    ext i
    rw [mem_foldl_cpu_set, hcores]
    simpa using h i
  rw [hmask, hset]

end

end Rapidsmpf.Bootstrap
