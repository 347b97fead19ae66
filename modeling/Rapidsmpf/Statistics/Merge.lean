import Mathlib
import Rapidsmpf.Lib.ListFacts
import Rapidsmpf.Lib.OrderedMap
import Rapidsmpf.Statistics.Serialization

/-!
# Merging statistics

`Statistics::merge` of `statistics.cpp`: the members of every input are copied, then folded into a
new object, one input after the other. `Merged l r` says in which sense `r` is the sum of the
inputs `l`; it does not mention their order, and there is at most one such `r`. `merge_eq_ok` says
that `merge` computes it, and throws when there is none; so no order and no grouping of the inputs
makes a difference (`merge_order_independent`).

The numbers are exact: counts come from a commutative monoid, such as the natural numbers or the
integers modulo `2 ^ 64` that a `std::size_t` holds, and values and maxima from a linear order with
an addition.
-/

namespace Rapidsmpf.Statistics

open Fallible ByteOrder

/-! ## The code -/

/-- `Statistics::Stat`, with exact numbers. -/
structure ExactStat (C V : Type) where
  count : C
  value : V
  max : V
deriving DecidableEq

variable {C V : Type} [AddCommMonoid C] [AddCommMonoid V] [LinearOrder V]

/-- `Stat::merge`. -/
def ExactStat.merge (s other : ExactStat C V) : ExactStat C V :=
  ⟨s.count + other.count, s.value + other.value, Max.max s.max other.max⟩

/-- `Snapshot`: the members of a `Statistics` that `merge` reads and writes. -/
structure Snapshot (C V : Type) where
  stats : OrderedMap Bytes (ExactStat C V)
  entries : OrderedMap Bytes ReportEntry
  enabled : Bool

/-- What `merge` throws. -/
inductive MergeError where
  | emptySpan
  | nullPointer
  | conflict (name : Bytes)
deriving DecidableEq

/-- The bytes of a text. -/
def textBytes (s : String) : Bytes := s.toUTF8.data.toList

/-- The text of an exception, which is a `std::invalid_argument`. -/
def MergeError.what : MergeError → Bytes
  | .emptySpan => textBytes "Statistics::merge: input span must not be empty"
  | .nullPointer => textBytes "Statistics::merge: pointer must not be null"
  | .conflict name =>
      textBytes "Statistics::merge: report entry '" ++ name ++
        textBytes "' has conflicting formatter or stat_names"

/-- `Statistics::create`. -/
def create (enabled : Bool) : Snapshot C V := ⟨.empty, .empty, enabled⟩

/-- The first loop: the members of every input, unless a pointer is null. -/
def snapshots (stats : List (Option (Snapshot C V))) :
    Except MergeError (List (Snapshot C V)) :=
  stats.mapM fun
    | none => .error .nullPointer
    | some s => .ok s

/-- One statistic: `try_emplace`, and `Stat::merge` if there was one of the name. -/
def mergeStat (stats : OrderedMap Bytes (ExactStat C V)) (e : Bytes × ExactStat C V) :
    OrderedMap Bytes (ExactStat C V) :=
  match stats.lookup e.1 with
  | none => stats.insert e.1 e.2
  | some it => stats.insert e.1 (it.merge e.2)

/-- One report entry: `try_emplace`, and a check if there was one of the name. -/
def mergeEntry (entries : OrderedMap Bytes ReportEntry) (e : Bytes × ReportEntry) :
    Except MergeError (OrderedMap Bytes ReportEntry) :=
  match entries.lookup e.1 with
  | none => .ok (entries.insert e.1 e.2)
  | some it =>
      if it.formatter = e.2.formatter ∧ it.statNames = e.2.statNames then .ok entries
      else .error (.conflict e.1)

/-- One input. -/
def mergeSnapshot (ret snap : Snapshot C V) : Except MergeError (Snapshot C V) := do
  let stats := snap.stats.entries.foldl mergeStat ret.stats
  let entries ← snap.entries.entries.foldlM mergeEntry ret.entries
  .ok ⟨stats, entries, ret.enabled⟩

/-- `Statistics::merge`, on the members of the inputs; a null pointer is `none`. -/
def merge (stats : List (Option (Snapshot C V))) : Except MergeError (Snapshot C V) :=
  if stats.isEmpty then .error .emptySpan
  else do
    let snapshots ← snapshots stats
    let anyEnabled := snapshots.any (·.enabled)
    snapshots.foldlM mergeSnapshot (create anyEnabled)

/-- What a shared pointer points to, among the objects there are. -/
def deref (objects : List (Snapshot C V)) (ptr : Option Nat) : Option (Snapshot C V) :=
  ptr.bind fun i => objects[i]?

/-- `Statistics::merge`, on shared pointers: the merged object is a new one. -/
def mergeShared (objects : List (Snapshot C V)) (stats : List (Option Nat)) :
    Except MergeError Nat × List (Snapshot C V) :=
  match merge (stats.map (deref objects)) with
  | .error e => (.error e, objects)
  | .ok ret => (.ok objects.length, objects ++ [ret])

/-! ## Sums of statistics -/

/-- The statistic is the sum of the others. -/
structure Totals (xs : List (ExactStat C V)) (x : ExactStat C V) : Prop where
  count : x.count = (xs.map ExactStat.count).sum
  value : x.value = (xs.map ExactStat.value).sum
  max : IsGreatest {m | ∃ y ∈ xs, y.max = m} x.max

namespace Totals

variable {xs ys : List (ExactStat C V)} {x y : ExactStat C V}

theorem singleton (x : ExactStat C V) : Totals [x] x where
  count := by simp
  value := by simp
  max := by
    refine ⟨⟨x, List.mem_singleton_self x, rfl⟩, ?_⟩
    rintro m ⟨y, hy, rfl⟩
    rw [List.mem_singleton.mp hy]

theorem append (hx : Totals xs x) (hy : Totals ys y) : Totals (xs ++ ys) (x.merge y) where
  count := by rw [List.map_append, List.sum_append, ← hx.count, ← hy.count]; rfl
  value := by rw [List.map_append, List.sum_append, ← hx.value, ← hy.value]; rfl
  max := by
    constructor
    · obtain ⟨a, ha, hax⟩ := hx.max.1
      obtain ⟨b, hb, hby⟩ := hy.max.1
      rcases le_total x.max y.max with hle | hle
      · exact ⟨b, List.mem_append_right xs hb, hby.trans (max_eq_right hle).symm⟩
      · exact ⟨a, List.mem_append_left ys ha, hax.trans (max_eq_left hle).symm⟩
    · rintro m ⟨a, ha, rfl⟩
      rcases List.mem_append.mp ha with ha | ha
      · exact le_max_of_le_left (hx.max.2 ⟨a, ha, rfl⟩)
      · exact le_max_of_le_right (hy.max.2 ⟨a, ha, rfl⟩)

/-- There is one sum only. -/
theorem unique (hx : Totals xs x) (hy : Totals xs y) : x = y := by
  obtain ⟨count, value, max⟩ := x
  obtain ⟨count', value', max'⟩ := y
  obtain rfl : count = count' := hx.count.trans hy.count.symm
  obtain rfl : value = value' := hx.value.trans hy.value.symm
  obtain rfl : max = max' := hx.max.unique hy.max
  rfl

/-- The order of the statistics does not matter. -/
theorem perm (hx : Totals xs x) (h : xs.Perm ys) : Totals ys x where
  count := by rw [hx.count, (h.map _).sum_eq]
  value := by rw [hx.value, (h.map _).sum_eq]
  max := by
    have hsame : {m | ∃ y ∈ ys, y.max = m} = {m | ∃ y ∈ xs, y.max = m} := by
      simp only [h.mem_iff]
    rw [hsame]
    exact hx.max

/-- The sum of sums. -/
theorem flatten {xss : List (List (ExactStat C V))} (h : List.Forall₂ Totals xss xs)
    (hx : Totals xs x) : Totals xss.flatten x where
  count := hx.count.trans (ListFacts.sum_map_flatten (fun _ _ hone => hone.count) h)
  value := hx.value.trans (ListFacts.sum_map_flatten (fun _ _ hone => hone.value) h)
  max := by
    constructor
    · obtain ⟨y, hy, hmax⟩ := hx.max.1
      obtain ⟨i, hi⟩ := List.mem_iff_getElem?.mp hy
      obtain ⟨ys, hys, htotals⟩ := ListFacts.forall₂_getElem? h.flip hi
      obtain ⟨z, hz, hzmax⟩ := htotals.max.1
      exact ⟨z, List.mem_flatten.mpr ⟨ys, List.mem_of_getElem? hys, hz⟩, hzmax.trans hmax⟩
    · rintro m ⟨z, hz, rfl⟩
      obtain ⟨ys, hys, hz⟩ := List.mem_flatten.mp hz
      obtain ⟨i, hi⟩ := List.mem_iff_getElem?.mp hys
      obtain ⟨y, hy, htotals⟩ := ListFacts.forall₂_getElem? h hi
      exact (htotals.max.2 ⟨z, hz, rfl⟩).trans (hx.max.2 ⟨y, List.mem_of_getElem? hy, rfl⟩)

end Totals

/-! ## Sums of objects -/

/-- The statistics of a name. -/
def held (l : List (Snapshot C V)) (name : Bytes) : List (ExactStat C V) :=
  l.filterMap fun s => s.stats.lookup name

/-- The object is the sum of the others. -/
structure Merged (l : List (Snapshot C V)) (r : Snapshot C V) : Prop where
  names : ∀ name, r.stats.lookup name = none ↔ ∀ s ∈ l, s.stats.lookup name = none
  totals : ∀ name x, r.stats.lookup name = some x → Totals (held l name) x
  entries : ∀ name e, r.entries.lookup name = some e ↔ ∃ s ∈ l, s.entries.lookup name = some e
  enabled : r.enabled = true ↔ ∃ s ∈ l, s.enabled = true

/-- Two objects have a report entry of the same name with another formatter or other names. -/
def Conflict (l : List (Snapshot C V)) : Prop :=
  ∃ s ∈ l, ∃ t ∈ l, ∃ name a b, s.entries.lookup name = some a ∧ t.entries.lookup name = some b ∧
    (a.formatter ≠ b.formatter ∨ a.statNames ≠ b.statNames)

omit [AddCommMonoid C] [AddCommMonoid V] [LinearOrder V] in
theorem held_append (l l' : List (Snapshot C V)) (name : Bytes) :
    held (l ++ l') name = held l name ++ held l' name :=
  List.filterMap_append

omit [AddCommMonoid C] [AddCommMonoid V] [LinearOrder V] in
theorem held_cons_none {s : Snapshot C V} {name : Bytes} (h : s.stats.lookup name = none)
    (l : List (Snapshot C V)) : held (s :: l) name = held l name := by
  simp [held, h]

omit [AddCommMonoid C] [AddCommMonoid V] [LinearOrder V] in
theorem held_cons_some {s : Snapshot C V} {name : Bytes} {x : ExactStat C V}
    (h : s.stats.lookup name = some x) (l : List (Snapshot C V)) :
    held (s :: l) name = x :: held l name := by
  simp [held, h]

omit [AddCommMonoid C] [AddCommMonoid V] [LinearOrder V] in
theorem held_eq_nil {l : List (Snapshot C V)} {name : Bytes}
    (h : ∀ s ∈ l, s.stats.lookup name = none) : held l name = [] := by
  simpa [held, List.filterMap_eq_nil_iff] using h

theorem entry_ne_iff {a b : ReportEntry} :
    a ≠ b ↔ a.formatter ≠ b.formatter ∨ a.statNames ≠ b.statNames := by
  obtain ⟨names, formatter⟩ := a
  obtain ⟨names', formatter'⟩ := b
  rw [Ne, ReportEntry.mk.injEq, not_and_or]
  exact or_comm

namespace Merged

variable {l l' : List (Snapshot C V)} {r r' : Snapshot C V}

/-- There is one sum only. -/
theorem unique (h : Merged l r) (h' : Merged l r') : r = r' := by
  have hstats : r.stats = r'.stats := by
    refine OrderedMap.ext fun name => ?_
    cases hx : r.stats.lookup name with
    | none => exact ((h'.names name).mpr ((h.names name).mp hx)).symm
    | some x =>
        cases hy : r'.stats.lookup name with
        | none => rw [(h.names name).mpr ((h'.names name).mp hy)] at hx; cases hx
        | some y => rw [(h.totals name x hx).unique (h'.totals name y hy)]
  have hentries : r.entries = r'.entries :=
    OrderedMap.ext fun name => Option.ext fun e =>
      (h.entries name e).trans (h'.entries name e).symm
  have henabled : r.enabled = r'.enabled := by
    rw [Bool.eq_iff_iff, h.enabled, h'.enabled]
  cases r
  cases r'
  congr

/-- The order of the objects does not matter. -/
theorem perm (h : Merged l r) (hperm : l.Perm l') : Merged l' r where
  names name := by simp only [h.names, hperm.mem_iff]
  totals name x hx := (h.totals name x hx).perm (hperm.filterMap _)
  entries name e := by simp only [h.entries, hperm.mem_iff]
  enabled := by simp only [h.enabled, hperm.mem_iff]

/-- Where there is a sum, there is no conflict. -/
theorem not_conflict (h : Merged l r) : ¬ Conflict l := by
  rintro ⟨s, hs, t, ht, name, a, b, ha, hb, hne⟩
  have ha' := (h.entries name a).mpr ⟨s, hs, ha⟩
  rw [(h.entries name b).mpr ⟨t, ht, hb⟩] at ha'
  exact entry_ne_iff.mpr hne (Option.some.inj ha').symm

theorem singleton (s : Snapshot C V) : Merged [s] s where
  names name := by simp
  totals name x hx := by
    have hheld : held [s] name = [x] := by simp [held, hx]
    rw [hheld]
    exact Totals.singleton x
  entries name e := by simp
  enabled := by simp

/-- The sum of sums. -/
theorem flatten {ls : List (List (Snapshot C V))} {rs : List (Snapshot C V)}
    (h : List.Forall₂ Merged ls rs) (hr : Merged rs r) : Merged ls.flatten r where
  names name := by
    have hall : (∀ s ∈ rs, s.stats.lookup name = none) ↔
        ∀ s ∈ ls.flatten, s.stats.lookup name = none := by
      clear hr
      induction h with
      | nil => simp
      | cons hone _ ih =>
          rw [List.forall_mem_cons, List.flatten_cons, List.forall_mem_append, hone.names, ih]
    rw [hr.names, hall]
  totals name x hx := by
    have hheld : ∃ xss : List (List (ExactStat C V)), xss.flatten = held ls.flatten name ∧
        List.Forall₂ Totals xss (held rs name) := by
      clear hr hx
      induction h with
      | nil => exact ⟨[], rfl, .nil⟩
      | @cons l s _ _ hone _ ih =>
          obtain ⟨xss, hflat, htotals⟩ := ih
          rw [List.flatten_cons, held_append, ← hflat]
          cases hs : s.stats.lookup name with
          | none =>
              have hnone : held l name = [] := held_eq_nil ((hone.names name).mp hs)
              rw [hnone, List.nil_append, held_cons_none hs]
              exact ⟨xss, rfl, htotals⟩
          | some y =>
              rw [held_cons_some hs]
              exact ⟨held l name :: xss, rfl, .cons (hone.totals name y hs) htotals⟩
    obtain ⟨xss, hflat, htotals⟩ := hheld
    rw [← hflat]
    exact Totals.flatten htotals (hr.totals name x hx)
  entries name e := by
    rw [hr.entries, ListFacts.exists_mem_flatten (fun _ _ hone => hone.entries name e) h]
  enabled := by
    rw [hr.enabled, ListFacts.exists_mem_flatten (fun _ _ hone => hone.enabled) h]

end Merged

/-! ## The loops -/

/-- One statistic updates its name. -/
theorem merge_stat_eq (stats : OrderedMap Bytes (ExactStat C V)) (e : Bytes × ExactStat C V) :
    mergeStat stats e = stats.update e.1 fun it => it.elim e.2 (·.merge e.2) := by
  rw [mergeStat, OrderedMap.update]
  split
  · next h => rw [h]; rfl
  · next it h => rw [h]; rfl

/-- One report entry is checked against the one of its name. -/
theorem merge_entry_eq_ok (entries : OrderedMap Bytes ReportEntry) (e : Bytes × ReportEntry)
    (r : OrderedMap Bytes ReportEntry) : mergeEntry entries e = .ok r ↔
      (∀ it, entries.lookup e.1 = some it → it = e.2) ∧
        r = entries.update e.1 fun it => it.getD e.2 := by
  have hsame : ∀ it : ReportEntry, (it.formatter = e.2.formatter ∧ it.statNames = e.2.statNames) ↔
      it = e.2 := by
    intro it
    rw [← not_iff_not, ← Ne, entry_ne_iff, not_and_or]
  rw [mergeEntry, OrderedMap.update]
  cases hit : entries.lookup e.1 with
  | none => simp [eq_comm]
  | some it =>
      simp only [hsame, Option.some.injEq, forall_eq', Option.getD_some,
        OrderedMap.insert_of_lookup hit]
      by_cases heq : it = e.2
      · simp [heq, eq_comm]
      · simp [heq]

/-- One input fits the object, or its report entries do not. -/
theorem merge_snapshot_eq_ok {ret snap r : Snapshot C V} : mergeSnapshot ret snap = .ok r ↔
    (∀ name a b, ret.entries.lookup name = some a → snap.entries.lookup name = some b → a = b) ∧
      r = ⟨snap.stats.entries.foldl mergeStat ret.stats,
        snap.entries.entries.foldl (fun m e => m.update e.1 fun it => it.getD e.2) ret.entries,
        ret.enabled⟩ := by
  have hloop : ∀ entries, snap.entries.entries.foldlM mergeEntry ret.entries = .ok entries ↔ _ :=
    fun _ => OrderedMap.foldlM_eq_ok (R := fun it e => it = e) (g := fun e it => it.getD e)
      merge_entry_eq_ok
  rw [mergeSnapshot, bind_eq_ok]
  simp only [hloop, Except.ok.injEq]
  constructor
  · rintro ⟨entries, ⟨hfit, rfl⟩, rfl⟩
    exact ⟨hfit, rfl⟩
  · rintro ⟨hfit, rfl⟩
    exact ⟨_, ⟨hfit, rfl⟩, rfl⟩

/-- The object holds the sums of the inputs that were folded into it; its flag was set before. -/
structure Folded (l : List (Snapshot C V)) (r : Snapshot C V) : Prop where
  names : ∀ name, r.stats.lookup name = none ↔ ∀ s ∈ l, s.stats.lookup name = none
  totals : ∀ name x, r.stats.lookup name = some x → Totals (held l name) x
  entries : ∀ name e, r.entries.lookup name = some e ↔ ∃ s ∈ l, s.entries.lookup name = some e

theorem Folded.create (enabled : Bool) : Folded [] (create enabled : Snapshot C V) where
  names name := by simp [Statistics.create]
  totals name x hx := by cases hx
  entries name e := by simp [Statistics.create]

/-- One more input. -/
theorem Folded.step {l : List (Snapshot C V)} {ret snap r : Snapshot C V} (h : Folded l ret)
    (hr : mergeSnapshot ret snap = .ok r) : Folded (l ++ [snap]) r ∧ r.enabled = ret.enabled := by
  obtain ⟨hfit, rfl⟩ := merge_snapshot_eq_ok.mp hr
  have hstats : ∀ name, (snap.stats.entries.foldl mergeStat ret.stats).lookup name =
      (snap.stats.lookup name).elim (ret.stats.lookup name) fun x =>
        some ((ret.stats.lookup name).elim x (·.merge x)) := by
    intro name
    have hsame : (mergeStat : OrderedMap Bytes (ExactStat C V) → _ → _) =
        fun stats e => stats.update e.1 fun it => it.elim e.2 (·.merge e.2) :=
      funext fun stats => funext fun e => merge_stat_eq stats e
    rw [hsame]
    exact OrderedMap.lookup_foldl_update
      (fun (x : ExactStat C V) it => it.elim x (·.merge x)) ret.stats snap.stats name
  have hentries : ∀ name, (snap.entries.entries.foldl
      (fun m e => m.update e.1 fun it => it.getD e.2) ret.entries).lookup name =
      (snap.entries.lookup name).elim (ret.entries.lookup name) fun e =>
        some ((ret.entries.lookup name).getD e) :=
    fun name => OrderedMap.lookup_foldl_update (fun (e : ReportEntry) it => it.getD e) ret.entries
      snap.entries name
  refine ⟨⟨fun name => ?_, fun name x hx => ?_, fun name e => ?_⟩, rfl⟩
  · rw [hstats name, List.forall_mem_append, List.forall_mem_singleton, ← h.names]
    cases snap.stats.lookup name <;> simp
  · rw [hstats name] at hx
    rw [held_append]
    cases hsnap : snap.stats.lookup name with
    | none =>
        rw [hsnap] at hx
        rw [held_cons_none hsnap]
        simpa [held] using h.totals name x hx
    | some y =>
        rw [hsnap, Option.elim_some, Option.some.injEq] at hx
        rw [held_cons_some hsnap]
        cases hret : ret.stats.lookup name with
        | none =>
            rw [hret, Option.elim_none] at hx
            rw [held_eq_nil ((h.names name).mp hret), ← hx]
            exact Totals.singleton y
        | some z =>
            rw [hret, Option.elim_some] at hx
            rw [← hx]
            exact (h.totals name z hret).append (Totals.singleton y)
  · rw [hentries name]
    simp only [List.mem_append, List.mem_singleton, or_and_right, exists_or, exists_eq_left,
      ← h.entries]
    cases hsnap : snap.entries.lookup name with
    | none => simp
    | some b =>
        cases hret : ret.entries.lookup name with
        | none => simp
        | some a =>
            obtain rfl := hfit name a b hret hsnap
            simp

/-- The fold succeeds exactly when no two inputs conflict, and then adds them up. -/
theorem Folded.foldlM {done l : List (Snapshot C V)} {ret : Snapshot C V} (h : Folded done ret) :
    (∀ r, l.foldlM mergeSnapshot ret = .ok r →
      Folded (done ++ l) r ∧ r.enabled = ret.enabled) ∧
    (¬ Conflict (done ++ l) → ∃ r, l.foldlM mergeSnapshot ret = .ok r) := by
  induction l generalizing done ret with
  | nil =>
      refine ⟨fun r hr => ?_, fun _ => ⟨ret, rfl⟩⟩
      rw [List.foldlM_nil, pure_eq_ok] at hr
      rw [List.append_nil, ← hr]
      exact ⟨h, rfl⟩
  | cons snap l ih =>
      have hsplit : done ++ snap :: l = done ++ [snap] ++ l := by simp
      rw [hsplit]
      simp only [List.foldlM_cons, bind_eq_ok]
      constructor
      · rintro r ⟨ret', hone, hr⟩
        obtain ⟨hstep, henabled⟩ := h.step hone
        obtain ⟨hfolded, hsame⟩ := (ih hstep).1 r hr
        exact ⟨hfolded, hsame.trans henabled⟩
      · intro hnone
        -- an entry of the object is one of an input that was folded before
        have hfit : ∀ name a b, ret.entries.lookup name = some a →
            snap.entries.lookup name = some b → a = b := by
          intro name a b ha hb
          by_contra hne
          obtain ⟨s, hs, ha⟩ := (h.entries name a).mp ha
          exact hnone ⟨s, by simp [hs], snap, by simp, name, a, b, ha, hb, entry_ne_iff.mp hne⟩
        have hone := merge_snapshot_eq_ok.mpr ⟨hfit, rfl⟩
        obtain ⟨r, hr⟩ := (ih (h.step hone).1).2 hnone
        exact ⟨r, _, hone, hr⟩

omit [AddCommMonoid C] [AddCommMonoid V] [LinearOrder V] in
theorem snapshots_eq (l : List (Snapshot C V)) : snapshots (l.map some) = .ok l := by
  induction l with
  | nil => rfl
  | cons s l ih =>
      rw [snapshots] at ih
      rw [snapshots, List.map_cons, List.mapM_cons, ih]
      rfl

/-- `merge` is the loop over its inputs. -/
theorem merge_map_some {l : List (Snapshot C V)} (hl : l ≠ []) :
    merge (l.map some) = l.foldlM mergeSnapshot (create (l.any (·.enabled))) := by
  rw [merge, snapshots_eq, if_neg (by simpa using hl)]
  rfl

/-- `merge` computes the sum of its inputs, and throws when there is none. -/
theorem merge_eq_ok {l : List (Snapshot C V)} (hl : l ≠ []) {r : Snapshot C V} :
    merge (l.map some) = .ok r ↔ Merged l r := by
  obtain ⟨hsound, hcomplete⟩ := (Folded.create (l.any (·.enabled))).foldlM (l := l)
  rw [List.nil_append] at hsound hcomplete
  have hsum : ∀ r, l.foldlM mergeSnapshot (create (l.any (·.enabled))) = .ok r → Merged l r := by
    intro r hr
    obtain ⟨⟨hnames, htotals, hentries⟩, henabled⟩ := hsound r hr
    refine ⟨hnames, htotals, hentries, ?_⟩
    rw [henabled]
    simp [create]
  rw [merge_map_some hl]
  constructor
  · exact hsum r
  · intro hr
    obtain ⟨r', hr'⟩ := hcomplete hr.not_conflict
    rw [hr', hr.unique (hsum r' hr')]

/-- The inputs have a sum exactly when no two of them conflict. -/
theorem exists_merged {l : List (Snapshot C V)} (h : ¬ Conflict l) : ∃ r, Merged l r := by
  by_cases hl : l = []
  · refine ⟨create false, hl ▸ ⟨fun name => ?_, fun name x hx => ?_, fun name e => ?_, ?_⟩⟩
    · simp [create]
    · cases hx
    · simp [create]
    · simp [create]
  · obtain ⟨r, hr⟩ := ((Folded.create (l.any (·.enabled))).foldlM (l := l)).2 h
    refine ⟨r, (merge_eq_ok hl).mp ?_⟩
    rw [merge_map_some hl]
    exact hr

/-! ## Groupings -/

mutual

/-- Merges of merges. -/
inductive Grouping (C V : Type) where
  | single (s : Snapshot C V)
  | group (gs : Groupings C V)

/-- What is merged at once: at least one object. -/
inductive Groupings (C V : Type) where
  | one (g : Grouping C V)
  | more (g : Grouping C V) (gs : Groupings C V)

end

mutual

/-- The objects of a grouping. -/
def Grouping.leaves : Grouping C V → List (Snapshot C V)
  | .single s => [s]
  | .group gs => gs.leaves.flatten

/-- The objects of each of the groupings. -/
def Groupings.leaves : Groupings C V → List (List (Snapshot C V))
  | .one g => [g.leaves]
  | .more g gs => g.leaves :: gs.leaves

end

mutual

/-- The result of the merges, from the innermost on. -/
def Grouping.eval : Grouping C V → Except MergeError (Snapshot C V)
  | .single s => .ok s
  | .group gs => do
      let rs ← gs.eval
      merge (rs.map some)

/-- The results of each of the groupings. -/
def Groupings.eval : Groupings C V → Except MergeError (List (Snapshot C V))
  | .one g => do
      let r ← g.eval
      .ok [r]
  | .more g gs => do
      let r ← g.eval
      let rs ← gs.eval
      .ok (r :: rs)

end

omit [AddCommMonoid C] [AddCommMonoid V] [LinearOrder V] in
/-- A part of objects without conflicts has none. -/
theorem Conflict.mono {l l' : List (Snapshot C V)} (h : Conflict l) (hsub : ∀ s ∈ l, s ∈ l') :
    Conflict l' := by
  obtain ⟨s, hs, t, ht, hrest⟩ := h
  exact ⟨s, hsub s hs, t, hsub t ht, hrest⟩

mutual

/-- The result of a grouping is the sum of its objects, if they have one. -/
theorem Grouping.eval_merged (g : Grouping C V) :
    (∀ r, g.eval = .ok r → Merged g.leaves r) ∧ (¬ Conflict g.leaves → ∃ r, g.eval = .ok r) := by
  cases g with
  | single s =>
      refine ⟨fun r hr => ?_, fun _ => ⟨s, rfl⟩⟩
      cases hr
      exact Merged.singleton s
  | group gs =>
      obtain ⟨hsound, hcomplete⟩ := Groupings.eval_merged gs
      simp only [Grouping.eval, bind_eq_ok, Grouping.leaves]
      constructor
      · rintro r ⟨rs, hrs, hr⟩
        obtain ⟨hne, hall⟩ := hsound rs hrs
        exact Merged.flatten hall ((merge_eq_ok hne).mp hr)
      · intro hnone
        obtain ⟨rs, hrs⟩ := hcomplete hnone
        obtain ⟨hne, hall⟩ := hsound rs hrs
        -- a conflict between results would be one between their objects
        have hfit : ¬ Conflict rs := by
          intro hconflict
          obtain ⟨s, hs, t, ht, name, a, b, ha, hb, hdiff⟩ := hconflict
          have hfind : ∀ e, (∃ u ∈ rs, u.entries.lookup name = some e) ↔
              ∃ v ∈ gs.leaves.flatten, v.entries.lookup name = some e :=
            fun e => ListFacts.exists_mem_flatten (fun _ _ hone => hone.entries name e) hall
          obtain ⟨s', hs', ha'⟩ := (hfind a).mp ⟨s, hs, ha⟩
          obtain ⟨t', ht', hb'⟩ := (hfind b).mp ⟨t, ht, hb⟩
          exact hnone ⟨s', hs', t', ht', name, a, b, ha', hb', hdiff⟩
        obtain ⟨r, hr⟩ := exists_merged hfit
        exact ⟨r, rs, hrs, (merge_eq_ok hne).mpr hr⟩

/-- The results of groupings are the sums of the objects of each. -/
theorem Groupings.eval_merged (gs : Groupings C V) :
    (∀ rs, gs.eval = .ok rs → rs ≠ [] ∧ List.Forall₂ Merged gs.leaves rs) ∧
      (¬ Conflict gs.leaves.flatten → ∃ rs, gs.eval = .ok rs) := by
  cases gs with
  | one g =>
      obtain ⟨hsound, hcomplete⟩ := Grouping.eval_merged g
      simp only [Groupings.eval, bind_eq_ok, Groupings.leaves, Except.ok.injEq]
      constructor
      · rintro rs ⟨r, hr, rfl⟩
        exact ⟨List.cons_ne_nil _ _, .cons (hsound r hr) .nil⟩
      · intro hnone
        rw [List.flatten_singleton] at hnone
        obtain ⟨r, hr⟩ := hcomplete hnone
        exact ⟨[r], r, hr, rfl⟩
  | more g gs =>
      obtain ⟨hsound, hcomplete⟩ := Grouping.eval_merged g
      obtain ⟨hsounds, hcompletes⟩ := Groupings.eval_merged gs
      simp only [Groupings.eval, bind_eq_ok, Groupings.leaves, Except.ok.injEq]
      constructor
      · rintro _ ⟨r, hr, rs, hrs, rfl⟩
        exact ⟨List.cons_ne_nil _ _, .cons (hsound r hr) (hsounds rs hrs).2⟩
      · intro hnone
        rw [List.flatten_cons] at hnone
        obtain ⟨r, hr⟩ := hcomplete fun h =>
          hnone (h.mono fun s hs => List.mem_append_left _ hs)
        obtain ⟨rs, hrs⟩ := hcompletes fun h =>
          hnone (h.mono fun s hs => List.mem_append_right _ hs)
        exact ⟨r :: rs, r, hr, rs, hrs, rfl⟩

end

/-- Merges of merges compute the sum of all objects, and throw when there is none. -/
theorem grouping_eq_ok (g : Grouping C V) {r : Snapshot C V} :
    g.eval = .ok r ↔ Merged g.leaves r := by
  obtain ⟨hsound, hcomplete⟩ := g.eval_merged
  constructor
  · exact hsound r
  · intro hr
    obtain ⟨r', hr'⟩ := hcomplete hr.not_conflict
    rw [hr', hr.unique (hsound r' hr')]

/-- `merge` throws exactly when two inputs have conflicting report entries, and otherwise makes a
new object that is the sum of the inputs; these stay as they are. No permutation and no grouping
changes the result, or whether there is one. -/
theorem merge_order_independent {l : List (Snapshot C V)} (hl : l ≠ []) :
    ((∃ e, merge (l.map some) = .error e) ↔ Conflict l) ∧
    (∀ r, merge (l.map some) = .ok r → Merged l r) ∧
    (∀ l' : List (Snapshot C V), l'.Perm l →
      ∀ r, merge (l'.map some) = .ok r ↔ merge (l.map some) = .ok r) ∧
    (∀ g : Grouping C V, g.leaves.Perm l →
      ∀ r, g.eval = .ok r ↔ merge (l.map some) = .ok r) ∧
    ∀ (objects : List (Snapshot C V)) (stats : List (Option Nat)),
      stats.map (deref objects) = l.map some →
        (∀ i < objects.length, (mergeShared objects stats).2[i]? = objects[i]?) ∧
        ∀ i, (mergeShared objects stats).1 = .ok i → ∀ r,
          (mergeShared objects stats).2[i]? = some r ↔ merge (l.map some) = .ok r := by
  have hperm : ∀ {l' : List (Snapshot C V)} {r}, l'.Perm l → (Merged l' r ↔ Merged l r) :=
    fun h => ⟨fun hr => hr.perm h, fun hr => hr.perm h.symm⟩
  refine ⟨?_, fun r => (merge_eq_ok hl).mp, fun l' h r => ?_, fun g h r => ?_,
    fun objects stats hstats => ⟨fun i hi => ?_, fun i hi r => ?_⟩⟩
  · constructor
    · rintro ⟨e, he⟩
      by_contra hnone
      obtain ⟨r, hr⟩ := exists_merged hnone
      rw [(merge_eq_ok hl).mpr hr] at he
      cases he
    · intro hconflict
      cases hr : merge (l.map some) with
      | error e => exact ⟨e, rfl⟩
      | ok r => exact absurd hconflict ((merge_eq_ok hl).mp hr).not_conflict
  · have hl' : l' ≠ [] := fun hnil => hl (List.nil_perm.mp (hnil ▸ h))
    rw [merge_eq_ok hl', merge_eq_ok hl, hperm h]
  · rw [grouping_eq_ok, merge_eq_ok hl, hperm h]
  · rw [mergeShared]
    split
    · rfl
    · exact List.getElem?_append_left hi
  · rw [mergeShared, hstats] at hi ⊢
    split at hi
    · cases hi
    · next ret hret =>
        cases hi
        rw [hret]
        simp

/-- An enabled object with one statistic, of the name `a`. -/
def oneStat (x : ExactStat Nat Nat) : Snapshot Nat Nat :=
  ⟨⟨[([97], x)], List.pairwise_singleton _ _⟩, .empty, true⟩

theorem merge_order_independent_two :
    Merged [oneStat ⟨1, 2, 2⟩, oneStat ⟨1, 3, 3⟩] (oneStat ⟨2, 5, 3⟩) :=
  (merge_order_independent (List.cons_ne_nil _ _)).2.1 _ rfl

end Rapidsmpf.Statistics
