import Mathlib
import Rapidsmpf.Streaming.Purging

/-!
# What a data request reports

`UnboundedFanout::wait_for_data_request`: the wait evaluates its predicate under the mutex until it
holds, and the predicate leaves the least and the greatest valid entry of `per_ch_processed` in two
locals, which are returned. Without a valid entry it holds at once and leaves the locals alone.
`wait_reports_iff` says when what is returned is what the last evaluation has seen.
-/

namespace Rapidsmpf.Streaming.Unbounded

open Protocol

universe u

variable {α : Type u}

/-- What an evaluation of the predicate sees: `per_ch_processed`, where `InvalidIdx` is `none`, and
the size of `recv_msg_ids`. -/
structure Seen where
  entries : List (Option Nat)
  size : Nat

namespace Seen

/-- `filtered_view`. -/
def valid (v : Seen) : List Nat := v.entries.filterMap id

/-- Every output has dropped out. -/
def AllInvalid (v : Seen) : Prop := ∀ e ∈ v.entries, e = none

/-- `per_ch_processed_min` and `per_ch_processed_max`. -/
abbrev Pair := Option Nat × Option Nat

/-- The predicate: the locals afterwards, and whether it holds. -/
def predicate (v : Seen) (locals : Pair) : Pair × Bool :=
  if v.valid.isEmpty then (locals, true)
  else ((v.valid.min?, v.valid.max?), v.valid.max? = some v.size)

/-- The pair is what there was to report: nothing when every output has dropped out, else the least
and the greatest valid entry, of which the greatest is the number of messages. -/
structure Reports (v : Seen) (pair : Pair) : Prop where
  none_iff : pair = (none, none) ↔ v.AllInvalid
  valid : ¬ v.AllInvalid → ∃ lo, pair = (some lo, some v.size) ∧
    IsLeast {k | some k ∈ v.entries} lo ∧ IsGreatest {k | some k ∈ v.entries} v.size

theorem mem_valid {v : Seen} {k : Nat} : k ∈ v.valid ↔ some k ∈ v.entries := by
  simp [valid]

theorem valid_eq_nil_iff {v : Seen} : v.valid = [] ↔ v.AllInvalid := by
  rw [valid, List.filterMap_eq_nil_iff]
  rfl

/-- Without a valid entry the predicate holds and the locals are those of before. -/
theorem predicate_of_invalid {v : Seen} (h : v.AllInvalid) (locals : Pair) :
    v.predicate locals = (locals, true) := by
  rw [predicate, valid_eq_nil_iff.mpr h]
  rfl

/-- With a valid entry the locals are set, and when the predicate holds they report. -/
theorem predicate_of_valid {v : Seen} (h : ¬ v.AllInvalid) (locals : Pair) :
    ∃ lo hi, (v.predicate locals).1 = (some lo, some hi) ∧
      ((v.predicate locals).2 = true → v.Reports (some lo, some hi)) := by
  have hne : v.valid ≠ [] := fun heq => h (valid_eq_nil_iff.mp heq)
  obtain ⟨lo, hlo⟩ := Option.ne_none_iff_exists'.mp (mt List.min?_eq_none_iff.mp hne)
  obtain ⟨hi, hhi⟩ := Option.ne_none_iff_exists'.mp (mt List.max?_eq_none_iff.mp hne)
  have hempty : v.valid.isEmpty = false := by simpa using hne
  refine ⟨lo, hi, by simp [predicate, hempty, hlo, hhi], fun hholds => ?_⟩
  obtain rfl : hi = v.size := by simpa [predicate, hempty, hhi] using hholds
  obtain ⟨hlomem, hleast⟩ := List.min?_eq_some_iff.mp hlo
  obtain ⟨himem, hgreatest⟩ := List.max?_eq_some_iff.mp hhi
  refine ⟨⟨fun heq => (by cases heq), fun hall => absurd hall h⟩, fun _ => ⟨lo, rfl, ?_, ?_⟩⟩
  · exact ⟨mem_valid.mp hlomem, fun k hk => hleast k (mem_valid.mpr hk)⟩
  · exact ⟨mem_valid.mp himem, fun k hk => hgreatest k (mem_valid.mpr hk)⟩

end Seen

open Seen (Pair)

/-- `wait_for_data_request`, given what the evaluations of the predicate see: the pair that is
returned, or nothing while the wait goes on. -/
def waitForDataRequest : List Seen → Pair → Option Pair
  | [], _ => none
  | v :: later, locals =>
      if (v.predicate locals).2 then some (v.predicate locals).1
      else waitForDataRequest later (v.predicate locals).1

/-- How `recv_task` goes on with the pair. -/
def proceed (pair : Pair) : Recv α :=
  match pair.1 with
  | some processedMin => .receiving processedMin
  | none => .leaving

/-- What the predicate sees in a state. -/
def State.seen (s : State α) : Seen := ⟨s.outputs.map Output.next, s.shared.recvMsgIds.length⟩

/-- A call that waits in `s₀` still waits in `s`, after evaluations that have seen `earlier`. -/
inductive Waits (s₀ : State α) : List Seen → State α → Prop where
  | start : Waits s₀ [] s₀
  | other {earlier : List Seen} {s s' : State α} {l : Label α} : Waits s₀ earlier s →
      (∀ r, l ≠ .recv r) → step l s = some s' → Waits s₀ earlier s'
  | look {earlier : List Seen} {s s' : State α} {lo hi : Option Nat} : Waits s₀ earlier s →
      step (.recv .request) s = some s' → s'.shared.recv = .waiting lo hi →
      Waits s₀ (earlier ++ [s.seen]) s'

variable {s₀ s s' : State α} {earlier : List Seen} {lo hi : Option Nat}

/-- The step of the receive task is an evaluation of the predicate. -/
theorem request_eq (hrecv : s.shared.recv = .waiting lo hi) :
    step (.recv .request) s = some { s with shared := { s.shared with
      recv := if (s.seen.predicate (lo, hi)).2 then proceed (s.seen.predicate (lo, hi)).1
        else .waiting (s.seen.predicate (lo, hi)).1.1 (s.seen.predicate (lo, hi)).1.2 } } := by
  obtain ⟨⟨input, staged, noMoreInput, recvMsgIds, purgeIdx, recv, counter, store⟩, outputs⟩ := s
  obtain rfl : recv = .waiting lo hi := hrecv
  simp only [step, recvStep, State.seen, Seen.predicate, Seen.valid, proceed]
  by_cases hempty : ((outputs.map Output.next).filterMap id).isEmpty = true
  · simp only [hempty, if_true, true_or]
    cases lo <;> rfl
  · simp only [hempty, Bool.false_eq_true, if_false, false_or]
    by_cases hmax : ((outputs.map Output.next).filterMap id).max? = some recvMsgIds.length
    · simp only [hmax, decide_true, if_true]
      cases ((outputs.map Output.next).filterMap id).min? <;> rfl
    · simp only [hmax, decide_false, if_false, Bool.false_eq_true]
      rfl

/-- The other tasks do not move the receive task. -/
theorem recv_of_other {l : Label α} (hl : ∀ r, l ≠ .recv r) (h : step l s = some s') :
    s'.shared.recv = s.shared.recv := by
  cases l with
  | recv r => exact absurd rfl (hl r)
  | send i l =>
      simp only [step] at h
      split at h
      · obtain ⟨o, -, rfl⟩ := Option.map_eq_some_iff.mp h
        rfl
      · cases h
  | consumer i c =>
      simp only [step] at h
      split at h
      · obtain ⟨o, -, rfl⟩ := Option.map_eq_some_iff.mp h
        rfl
      · cases h
  | insertOther m =>
      cases h
      rfl

/-- The locals of a call that still waits are those its evaluations have left: unset before the
first one, which sets them unless it ends the wait. -/
theorem Waits.locals (hstart : s₀.shared.recv = .waiting none none) (h : Waits s₀ earlier s) :
    ∃ pair : Pair, s.shared.recv = .waiting pair.1 pair.2 ∧
      (∀ later, waitForDataRequest (earlier ++ later) (none, none)
        = waitForDataRequest later pair) ∧
      (earlier = [] ∧ pair = (none, none) ∨ earlier ≠ [] ∧ ∃ lo hi, pair = (some lo, some hi)) := by
  induction h with
  | start => exact ⟨(none, none), hstart, fun _ => rfl, .inl ⟨rfl, rfl⟩⟩
  | other _ hl hstep ih =>
      obtain ⟨pair, hrecv, hrest⟩ := ih
      exact ⟨pair, (recv_of_other hl hstep).trans hrecv, hrest⟩
  | @look earlier s s' lo hi _ hstep hwaits ih =>
      obtain ⟨pair, hrecv, hrest, -⟩ := ih
      rw [request_eq hrecv] at hstep
      obtain rfl := Option.some.inj hstep
      by_cases hholds : (s.seen.predicate pair).2 = true
      · simp only [Prod.mk.eta, hholds, if_true] at hwaits
        unfold proceed at hwaits
        split at hwaits <;> cases hwaits
      · have hvalid : ¬ s.seen.AllInvalid := fun hall =>
          hholds (by rw [Seen.predicate_of_invalid hall])
        obtain ⟨lo, hi, hpair, -⟩ := Seen.predicate_of_valid hvalid pair
        refine ⟨(some lo, some hi), ?_, fun later => ?_, .inr ⟨by simp, lo, hi, rfl⟩⟩
        · simp only [Prod.mk.eta, hholds, hpair]
          rfl
        · rw [List.append_assoc, hrest, List.singleton_append, waitForDataRequest, hpair,
            if_neg hholds]

/-- What a call of `wait_for_data_request` returns reports what its last evaluation has seen, and
the receive task leaves if every output has dropped out, unless every output has dropped out after
an earlier evaluation of the same call. -/
theorem wait_reports_iff (hstart : s₀.shared.recv = .waiting none none)
    (hwaits : Waits s₀ earlier s) (hstep : step (.recv .request) s = some s')
    (hends : ∀ lo hi, s'.shared.recv ≠ .waiting lo hi) :
    ∃ pair, waitForDataRequest (earlier ++ [s.seen]) (none, none) = some pair ∧
      s'.shared.recv = proceed pair ∧
      ((s.seen.Reports pair ∧ (s.seen.AllInvalid → s'.shared.recv = .leaving)) ↔
        (s.seen.AllInvalid → earlier = [])) := by
  obtain ⟨pair, hrecv, hrest, hlocals⟩ := hwaits.locals hstart
  rw [request_eq hrecv] at hstep
  obtain rfl := Option.some.inj hstep
  simp only [Prod.mk.eta] at hends ⊢
  have hholds : (s.seen.predicate pair).2 = true := by
    by_contra hfalse
    rw [if_neg hfalse] at hends
    exact hends _ _ rfl
  refine ⟨(s.seen.predicate pair).1, ?_, if_pos hholds, ?_⟩
  · rw [hrest, waitForDataRequest, if_pos hholds]
  · rw [if_pos hholds]
    by_cases hall : s.seen.AllInvalid
    · rw [Seen.predicate_of_invalid hall]
      rcases hlocals with ⟨hearlier, rfl⟩ | ⟨hearlier, lo, hi, rfl⟩
      · exact ⟨fun _ _ => hearlier, fun _ => ⟨⟨⟨fun _ => hall, fun _ => rfl⟩,
          fun hnot => absurd hall hnot⟩, fun _ => rfl⟩⟩
      · constructor
        · intro hreports
          cases hreports.1.none_iff.mpr hall
        · intro hcondition
          exact absurd (hcondition hall) hearlier
    · obtain ⟨lo, hi, hpair, hreports⟩ := Seen.predicate_of_valid hall pair
      rw [hpair]
      exact ⟨fun _ h => absurd h hall, fun _ => ⟨hreports hholds, fun h => absurd h hall⟩⟩

/-- Steps of the other tasks while the receive task waits. -/
theorem Waits.others {ls : List (Label α)} (h : Waits s₀ earlier s)
    (hls : ∀ l ∈ ls, ∀ r, l ≠ .recv r) (hrun : ls.foldlM (fun s l => step l s) s = some s') :
    Waits s₀ earlier s' := by
  induction ls generalizing s with
  | nil =>
      cases hrun
      exact h
  | cons l ls ih =>
      rw [List.foldlM_cons] at hrun
      obtain ⟨s₁, hfirst, hrest⟩ := Option.bind_eq_some_iff.mp hrun
      exact ih (h.other (hls l List.mem_cons_self) hfirst)
        (fun l' hl' => hls l' (List.mem_cons_of_mem l hl')) hrest

/-- The second call looks in vain, and then once more after the first output has sent the message.
It reports what it sees then. -/
theorem second_look_reports :
    ∃ s₀ s s' : State Nat, ∃ earlier, (system [7]).Reachable s₀ ∧
      s₀.shared.recv = .waiting none none ∧ Waits s₀ earlier s ∧ earlier ≠ [] ∧
      s.seen.entries = [some 1, some 0] ∧ step (.recv .request) s = some s' ∧
      ∃ pair, waitForDataRequest (earlier ++ [s.seen]) (none, none) = some pair ∧
        s'.shared.recv = proceed pair ∧ s.seen.Reports pair := by
  obtain ⟨s₀, s₁, s, s', hstage, hstart, hlook, hwaiting, hsend, hentries, hrequest, hrecv⟩ :
      ∃ s₀ s₁ s s' : State Nat,
      stageOne.foldlM (fun s l => step l s) oneMessage = some s₀ ∧
      s₀.shared.recv = .waiting none none ∧ step (.recv .request) s₀ = some s₁ ∧
      s₁.shared.recv = .waiting (some 0) (some 0) ∧
      (batch 0).foldlM (fun s l => step l s) s₁ = some s ∧
      s.seen.entries = [some 1, some 0] ∧ step (.recv .request) s = some s' ∧
      s'.shared.recv = .receiving 0 :=
    ⟨_, _, _, _, rfl, rfl, rfl, rfl, rfl, rfl, rfl, rfl⟩
  have hreach : (system [7]).Reachable s₀ :=
    (System.Reach.init oneMessage_init).exec (fun l _ s₁ s₂ h => ⟨trivial, h⟩) hstage
  have hwaits : Waits s₀ [s₀.seen] s :=
    (Waits.look .start hlook hwaiting).others (by simp [batch]) hsend
  have hends : ∀ lo hi, s'.shared.recv ≠ .waiting lo hi := by
    intro lo hi h
    rw [hrecv] at h
    cases h
  obtain ⟨pair, hreturned, hproceed, hreports⟩ := wait_reports_iff hstart hwaits hrequest hends
  refine ⟨s₀, s, s', [s₀.seen], hreach, hstart, hwaits, List.cons_ne_nil _ _, hentries, hrequest,
    pair, hreturned, hproceed, (hreports.mpr fun hall => ?_).1⟩
  -- the first output is valid
  have hnone := hall (some 1) (by rw [hentries]; exact List.mem_cons_self)
  cases hnone

/-- The consumer shuts its channel down, and the send task cannot send the message. -/
def dropOut (i : Nat) : List (Label Nat) :=
  [.consumer i .shutdown, .send i .take, .send i .copy, .send i .refused, .send i .invalidate]

/-- Both outputs drop out after the second call has evaluated its predicate once. The call returns
the pair of that evaluation, and the receive task goes on to receive. -/
theorem stale_pair_returned :
    ∃ s₀ s s' : State Nat, ∃ earlier, (system [7]).Reachable s₀ ∧
      s₀.shared.recv = .waiting none none ∧ Waits s₀ earlier s ∧ s.seen.AllInvalid ∧
      step (.recv .request) s = some s' ∧
      waitForDataRequest (earlier ++ [s.seen]) (none, none) = some (some 0, some 0) ∧
      s'.shared.recv = .receiving 0 := by
  obtain ⟨s₀, s₁, s, s', hstage, hstart, hlook, hwaiting, hdrop, hentries, hrequest, hreturned,
      hrecv⟩ : ∃ s₀ s₁ s s' : State Nat,
      stageOne.foldlM (fun s l => step l s) oneMessage = some s₀ ∧
      s₀.shared.recv = .waiting none none ∧ step (.recv .request) s₀ = some s₁ ∧
      s₁.shared.recv = .waiting (some 0) (some 0) ∧
      (dropOut 0 ++ dropOut 1).foldlM (fun s l => step l s) s₁ = some s ∧
      s.seen.entries = [none, none] ∧ step (.recv .request) s = some s' ∧
      waitForDataRequest ([s₀.seen] ++ [s.seen]) (none, none) = some (some 0, some 0) ∧
      s'.shared.recv = .receiving 0 :=
    ⟨_, _, _, _, rfl, rfl, rfl, rfl, rfl, rfl, rfl, rfl, rfl⟩
  have hreach : (system [7]).Reachable s₀ :=
    (System.Reach.init oneMessage_init).exec (fun l _ s₁ s₂ h => ⟨trivial, h⟩) hstage
  have hwaits : Waits s₀ [s₀.seen] s :=
    (Waits.look .start hlook hwaiting).others (by simp [dropOut]) hdrop
  have hall : s.seen.AllInvalid := by
    show ∀ e ∈ s.seen.entries, e = none
    rw [hentries]
    simp
  exact ⟨s₀, s, s', [s₀.seen], hreach, hstart, hwaits, hall, hrequest, hreturned, hrecv⟩

end Rapidsmpf.Streaming.Unbounded
