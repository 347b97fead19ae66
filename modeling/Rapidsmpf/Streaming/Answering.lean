import Rapidsmpf.Streaming.ReserveOrWait

/-!
# Every request is answered, once

The periodic task serves requests until the set is empty: past the cap of the spill extension a
pass of its loop either forces a request out or drops the recheck, so that the next pass does. The
measure `State.work` counts what is left to do. Every step of the instance itself lowers it, when
its passes are past the cap, and there is such a step as long as a request has no outcome.
-/

namespace Rapidsmpf.Streaming.ReserveOrWait

open Protocol Memory ListFacts

variable {cfg : Config} {s s' : State} {w : Window} {obs : Observation} {i : Nat} {t : Task}

/-- The steps of the instance itself: of its tasks, of its pushes and of its shutdowns. -/
def Label.Own : Label → Prop
  | .task _ _ => True
  | .pushed _ => True
  | .shut _ _ => True
  | _ => False

/-- A pass is past the timeout and past the cap of the extension. -/
def Window.Late (cfg : Config) (w : Window) (obs : Observation) : Prop :=
  cfg.timeout < obs.now - w.lastReservationSuccess ∧
    (1 + spillWaitCapFactor) * cfg.timeout < obs.now - w.lastReservationSuccess

/-- A step whose pass, if it is one, is late. -/
def Label.Late (cfg : Config) (s : State) : Label → Prop
  | .task i (.pass obs) => ∀ w, s.tasks[i]? = some (.yielding w) → w.Late cfg obs
  | _ => True

/-- The instance left to itself, when its passes are late. -/
def late (cfg : Config) : System State Label where
  init _ := True
  step s l s' := l.Own ∧ l.Late cfg s ∧ step cfg l s = some s'

section Pass

theorem judge_last : (w.judge obs).lastReservationSuccess = w.lastReservationSuccess := by
  unfold Window.judge
  split <;> rfl

theorem judge_recheck : (w.judge obs).recheckAfterSpill = w.recheckAfterSpill := by
  unfold Window.judge
  split <;> rfl

/-- Past the timeout and the cap of the extension the loop is left, after at most one more pass. -/
theorem pass_late (hlate : w.Late cfg obs) :
    w.pass cfg obs = none ∨ w.recheckAfterSpill = true ∧
      ∃ w', w.pass cfg obs = some w' ∧ w'.recheckAfterSpill = false := by
  obtain ⟨htimeout, hcap⟩ := hlate
  have hkeep : ¬ (w.judge obs).keepWaiting cfg obs := by
    rintro ⟨-, -, hless, -⟩
    rw [judge_last] at hless
    exact absurd hcap (not_lt.mpr hless)
  unfold Window.pass
  simp only [htimeout, if_true, hkeep, if_false]
  split
  · next hrecheck =>
      rw [judge_recheck] at hrecheck
      exact .inr ⟨hrecheck, _, rfl, rfl⟩
  · exact .inl rfl

/-- An observation past the timeout and the cap, during a spill. -/
def pastCap (cfg : Config) (w : Window) : Observation where
  now := w.lastReservationSuccess + max cfg.timeout ((1 + spillWaitCapFactor) * cfg.timeout) + 1
  spillGeneration := 0
  available := 0
  spillingNow := true

theorem pastCap_late : w.Late cfg (pastCap cfg w) := by
  simp only [Window.Late, pastCap]
  omega

end Pass

section Work

/-- A pending recheck costs another pass. -/
def Window.rank (w : Window) : Nat :=
  if w.recheckAfterSpill then 4 else 0

/-- The steps of a task until it forces a request out or finishes. -/
def Task.rank : Task → Nat
  | .starting => 5
  | .top w => 4 + w.rank
  | .yielding w => 3 + w.rank
  | .reading w => 6 + w.rank
  | .admitting w _ => 5 + w.rank
  | .admitted _ _ _ => 11
  | .forcing => 2
  | .forced _ => 12
  | .finishing => 1
  | .finished => 0

/-- What is left to do. -/
def State.work (s : State) : Nat :=
  13 * s.requests.length + (s.tasks.map Task.rank).sum + s.pushes.length +
    (s.shutdowns.map fun x => x.held.length).sum

/-- Nothing is pending or underway. -/
structure State.Quiet (s : State) : Prop where
  requests : s.requests = []
  pushes : s.pushes = []
  tasks : ∀ t ∈ s.tasks, t.held = []
  shutdowns : ∀ x ∈ s.shutdowns, x.held = []

theorem work_set (hi : s.tasks[i]? = some t) {t' : Task} {n k : Nat}
    (htasks : s'.tasks = s.tasks.set i t') (hrequests : s'.requests.length + n = s.requests.length)
    (hpushes : s'.pushes.length = s.pushes.length + k) (hshutdowns : s'.shutdowns = s.shutdowns)
    (hrank : t'.rank + k < t.rank + 13 * n) : s'.work < s.work := by
  have hsum := sum_map_set hi Task.rank t'
  rw [State.work, State.work, htasks, hpushes, hshutdowns]
  omega

theorem work_extract {r : Request} (hi : s.tasks[i]? = some t) (hr : r ∈ s.requests) {t' : Task}
    (hrank : t'.rank < t.rank + 13) : (extract s i r t').work < s.work := by
  refine work_set hi (n := 1) (k := 0) rfl ?_ rfl rfl (by omega)
  have hpos := List.length_pos_of_mem hr
  simp only [extract, List.length_erase_of_mem hr]
  omega

/-- A late step of a task brings it closer to its end. -/
theorem taskStep_work {l : TaskLabel} (hi : s.tasks[i]? = some t)
    (hlate : (Label.task i l).Late cfg s) (h : taskStep cfg s i l t = some s') :
    s'.work < s.work := by
  have hmove : ∀ t' : Task, t'.rank < t.rank →
      ({ s with tasks := s.tasks.set i t' } : State).work < s.work := fun t' hrank =>
    work_set hi (n := 0) (k := 0) rfl rfl rfl rfl hrank
  have hexit : 1 < t.rank →
      ({ s with taskRunning := false, tasks := s.tasks.set i .finishing } : State).work < s.work :=
    fun hrank => work_set hi (n := 0) (k := 0) rfl rfl rfl rfl hrank
  unfold taskStep at h
  split at h
  case h_1 =>
    cases h
    exact hmove _ (by simp [Task.rank, Window.rank, Window.start])
  case h_2 =>
    split at h
    · cases h
      exact hexit (by simp only [Task.rank]; omega)
    · cases h
      exact hmove _ (by simp [Task.rank])
  case h_3 obs w =>
    rcases pass_late (hlate w hi) with hpass | ⟨hrecheck, w', hpass, hrecheck'⟩
    · rw [hpass] at h
      cases h
      exact hmove _ (by simp only [Task.rank]; omega)
    · rw [hpass] at h
      cases h
      exact hmove _ (by simp [Task.rank, Window.rank, hrecheck, hrecheck'])
  case h_4 =>
    cases h
    exact hmove _ (by simp [Task.rank])
  case h_5 =>
    split at h
    · cases h
      exact hmove _ (by simp [Task.rank])
    · next r hr =>
        split at h
        · split at h
          · cases h
            exact hmove _ (by simp [Task.rank])
          · cases h
            exact work_extract hi (admissible_mem hr) (by simp only [Task.rank]; omega)
        · cases h
  case h_6 =>
    cases h
    refine work_set hi (n := 0) (k := 1) rfl rfl (by simp) rfl ?_
    simp [Task.rank, Window.rank, Window.admitted]
  case h_7 =>
    split at h
    · cases h
      exact hexit (by simp [Task.rank])
    · next r hr =>
        cases h
        exact work_extract hi (smallest_mem hr) (by simp [Task.rank])
  case h_8 =>
    split at h
    · cases h
      exact work_set hi (n := 0) (k := 1) rfl rfl (by simp) rfl (by simp [Task.rank])
    · cases h
  case h_9 =>
    cases h
    exact hmove _ (by simp [Task.rank])
  case h_10 => cases h

/-- Every late step of the instance itself lowers the work. -/
theorem late_step_work {l : Label} (h : (late cfg).step s l s') : s'.work < s.work := by
  obtain ⟨hown, hlate, hstep⟩ := h
  cases l with
  | task i l =>
      simp only [step] at hstep
      split at hstep
      · next t hi => exact taskStep_work hi hlate hstep
      · cases hstep
  | pushed k =>
      simp only [step] at hstep
      split at hstep
      · next r outcome hk =>
          have hlt : k < s.pushes.length := (List.getElem?_eq_some_iff.mp hk).1
          have hlength := List.length_eraseIdx_of_lt hlt
          split at hstep
          · cases hstep
            simp only [State.work]
            omega
          · cases hstep
            simp only [State.work]
            omega
      · cases hstep
  | shut i k =>
      simp only [step] at hstep
      split at hstep
      · next requests task hi =>
          split at hstep
          · next r hk =>
              cases hstep
              have hlt : k < requests.length := (List.getElem?_eq_some_iff.mp hk).1
              have hlength := List.length_eraseIdx_of_lt hlt
              have hsum : ((s.shutdowns.set i (.closing (requests.eraseIdx k) task)).map
                  fun x => x.held.length).sum + requests.length =
                    (s.shutdowns.map fun x => x.held.length).sum + (requests.eraseIdx k).length :=
                sum_map_set hi (fun x => x.held.length) _
              simp only [State.work]
              omega
          · cases hstep
      · cases hstep
  | _ => exact hown.elim

theorem reserve_refused {size : Nat} (hsize : Countable size) :
    decideReserve 0 0 size .no = .ok (0, size) := by
  obtain ⟨hpos, hlt⟩ := hsize
  have hzero : safeCast 0 = .ok 0 := rfl
  have hcast : safeCast size = .ok (size : Int) := if_pos hlt
  have hcounted : signed (0 + (size : Int)) = .ok (0 + (size : Int)) := if_pos (by omega)
  have hheadroom : signed (0 - (0 + (size : Int))) = .ok (0 - (0 + (size : Int))) :=
    if_pos (by omega)
  have hmissing : signed (-(0 - (0 + (size : Int)))) = .ok (-(0 - (0 + (size : Int)))) :=
    if_pos (by omega)
  have hover : overbookingOf (0 - (0 + (size : Int))) = .ok size := by
    rw [overbookingOf, if_pos (by omega)]
    refine Fallible.bind_eq_ok.mpr ⟨_, hmissing, ?_⟩
    rw [Fallible.pure_eq_ok]
    omega
  rw [decideReserve]
  refine Fallible.bind_eq_ok.mpr ⟨_, hzero, Fallible.bind_eq_ok.mpr ⟨_, hcast, ?_⟩⟩
  refine Fallible.bind_eq_ok.mpr ⟨_, hcounted, Fallible.bind_eq_ok.mpr ⟨_, hheadroom, ?_⟩⟩
  refine Fallible.bind_eq_ok.mpr ⟨_, hover, ?_⟩
  exact if_pos ⟨hpos, rfl⟩

/-- A request the task can extract is one of the inserted ones. -/
theorem State.Sound.mem_inserted (hs : s.Sound) {r : Request} (hr : r ∈ s.requests) :
    r ∈ s.inserted := by
  have hset := hs.ledger.set r
  have hpos := List.count_pos_iff.mpr hr
  exact List.count_pos_iff.mp (by omega)

/-- A task that holds a request can push it. -/
theorem push_step (hs : s.Sound) (hi : s.tasks[i]? = some t) (hheld : t.held ≠ []) :
    ∃ l s', (late cfg).step s l s' := by
  cases t with
  | admitted w r size =>
      exact ⟨.task i (.push 0), _, trivial, trivial, by simp only [step, hi, taskStep]; rfl⟩
  | forced r =>
      have hsize : Countable r.size := by
        refine hs.genuine.inserted r ?_
        have hpos : 0 < (Task.forced r).held.count r := by simp [Task.held]
        have hle := le_sum_map hi (fun t => t.held.count r)
        have hset := hs.ledger.set r
        have hout := hs.ledger.out r
        simp only [State.underway] at hout
        exact List.count_pos_iff.mp (by omega)
      refine ⟨.task i (.reserveForced 0 0), { s with
        pushes := s.pushes ++ [(r, .forced 0)]
        tasks := s.tasks.set i .starting }, trivial, trivial, ?_⟩
      simp only [step, hi, taskStep, reserve_refused hsize]
  | _ => exact absurd rfl hheld

/-- A task that will look at the set can go on. -/
theorem live_step (hs : s.Sound) (hpending : s.requests ≠ []) (hi : s.tasks[i]? = some t)
    (hlive : t.Live) : ∃ l s', (late cfg).step s l s' := by
  cases t with
  | starting =>
      exact ⟨.task i (.start 0), _, trivial, trivial, by simp only [step, hi, taskStep]; rfl⟩
  | top w =>
      exact ⟨.task i .look, _, trivial, trivial, by simp only [step, hi, taskStep, hpending]; rfl⟩
  | yielding w =>
      have hlate : (Label.task i (.pass (pastCap cfg w))).Late cfg s := by
        intro w' hi'
        cases hi.symm.trans hi'
        exact pastCap_late
      cases hpass : w.pass cfg (pastCap cfg w) with
      | none =>
          exact ⟨.task i (.pass (pastCap cfg w)), _, trivial, hlate,
            by simp only [step, hi, taskStep, hpass]; rfl⟩
      | some w' =>
          exact ⟨.task i (.pass (pastCap cfg w)), _, trivial, hlate,
            by simp only [step, hi, taskStep, hpass]; rfl⟩
  | reading w =>
      exact ⟨.task i (.read 0), _, trivial, trivial, by simp only [step, hi, taskStep]; rfl⟩
  | admitting w maxSize =>
      refine ⟨.task i (.admission 0 0), { s with tasks := s.tasks.set i (.top w) }, trivial,
        trivial, ?_⟩
      simp only [step, hi, taskStep]
      split
      · rfl
      · next r hr =>
          have hr := hs.mem_inserted (admissible_mem hr)
          simp only [reserve_refused (hs.genuine.inserted r hr), if_true]
  | admitted w r size => exact push_step hs hi (by simp [Task.held])
  | forcing =>
      cases hr : smallest s.requests with
      | none => exact absurd (smallest_eq_none hr) hpending
      | some r =>
          exact ⟨.task i .force, extract s i r (.forced r), trivial, trivial,
            by simp only [step, hi, taskStep, hr]⟩
  | forced r => exact push_step hs hi (by simp [Task.held])
  | finishing => exact hlive.elim
  | finished => exact hlive.elim

/-- A shutdown can shut the queue of a request it holds down. -/
theorem shut_step {x : Shutdown} (hi : s.shutdowns[i]? = some x) (hheld : x.held ≠ []) :
    ∃ l s', (late cfg).step s l s' := by
  cases x with
  | closing requests task =>
      cases requests with
      | nil => exact absurd rfl hheld
      | cons r rest => exact ⟨.shut i 0, _, trivial, trivial, by simp only [step, hi]; rfl⟩
  | joining task => exact absurd rfl hheld
  | returned => exact absurd rfl hheld

/-- A push can reach the queue of its request. -/
theorem pushed_step (hs : s.Sound) (hpushes : s.pushes ≠ []) :
    ∃ l s', (late cfg).step s l s' := by
  obtain ⟨⟨r, outcome⟩, rest, hcons⟩ := List.exists_cons_of_ne_nil hpushes
  have hfirst : s.pushes[0]? = some (r, outcome) := by rw [hcons]; rfl
  have hrunning : (r, Outcome.shutDown) ∉ s.answers := by
    intro hmem
    have hnone := hs.ledger.push_accepted hfirst
    rw [State.answered, List.count_eq_zero] at hnone
    exact hnone (List.mem_map.mpr ⟨_, hmem, rfl⟩)
  refine ⟨.pushed 0, { s with
    pushes := s.pushes.eraseIdx 0, answers := s.answers ++ [(r, outcome)] }, trivial, trivial, ?_⟩
  simp only [step, hfirst, hrunning, if_false]

/-- An instance that cannot go on has nothing pending or underway. -/
theorem quiet_of_stuck (hs : s.Sound) (hstuck : ∀ l s', ¬ (late cfg).step s l s') : s.Quiet := by
  have hno : ¬ ∃ l s', (late cfg).step s l s' := fun ⟨l, s', h⟩ => hstuck l s' h
  refine ⟨?_, ?_, fun t ht => ?_, fun x hx => ?_⟩
  · by_contra hpending
    obtain ⟨i, t, hi, hlive⟩ := hs.serving.running (hs.serving.pending hpending)
    exact hno (live_step hs hpending hi hlive)
  · by_contra hpushes
    exact hno (pushed_step hs hpushes)
  · by_contra hheld
    obtain ⟨i, hi⟩ := List.mem_iff_getElem?.mp ht
    exact hno (push_step hs hi hheld)
  · by_contra hheld
    obtain ⟨i, hi⟩ := List.mem_iff_getElem?.mp hx
    exact hno (shut_step hi hheld)

end Work

section Outcome

/-- When nothing is pending or underway, every request was removed once and answered once. -/
theorem State.Quiet.answered (hs : s.Sound) (hquiet : s.Quiet) {r : Request}
    (hr : r ∈ s.inserted) : s.removed.count r = 1 ∧ s.answered r = 1 := by
  have hpos := List.count_pos_iff.mpr hr
  have hone := hs.ledger.count_le_one r
  have hset := hs.ledger.set r
  have hout := hs.ledger.out r
  have htasks : (s.tasks.map fun t => t.held.count r).sum = 0 := by
    refine List.sum_eq_zero fun n hn => ?_
    obtain ⟨t, ht, rfl⟩ := List.mem_map.mp hn
    rw [hquiet.tasks t ht, List.count_nil]
  have hshutdowns : (s.shutdowns.map fun x => x.held.count r).sum = 0 := by
    refine List.sum_eq_zero fun n hn => ?_
    obtain ⟨x, hx, rfl⟩ := List.mem_map.mp hn
    rw [hquiet.shutdowns x hx, List.count_nil]
  rw [hquiet.requests, List.count_nil] at hset
  simp only [State.underway, hquiet.pushes, List.map_nil, List.count_nil, htasks,
    hshutdowns] at hout
  omega

/-- While requests are pending, no step ends the task that will look at the set again. -/
theorem live_stays {l : Label} (hs : s.Sound) (hpending : s.requests ≠ [])
    (hi : s.tasks[i]? = some t) (hlive : t.Live) (h : step cfg l s = some s') :
    ∃ t', s'.tasks[i]? = some t' ∧ t'.Live := by
  cases l with
  | task j l =>
      simp only [step] at h
      split at h
      · next x hx =>
          have hset : ∀ t' : Task, (x.Live → t'.Live) →
              ∃ y, (s.tasks.set j t')[i]? = some y ∧ y.Live := by
            intro t' ht'
            by_cases hji : j = i
            · subst hji
              cases hx.symm.trans hi
              have hlt : j < s.tasks.length := (List.getElem?_eq_some_iff.mp hx).1
              exact ⟨t', List.getElem?_set_self hlt, ht' hlive⟩
            · exact ⟨t, by rw [List.getElem?_set_ne hji, hi], hlive⟩
          cases taskStep_effect (hs.genuine.tasks x (List.mem_of_getElem? hx)) h with
          | move hheld hheld' hsame hfits => exact hset _ hsame.mpr
          | exit hheld hlive' hempty => exact absurd hempty hpending
          | extract hheld hr hheld' hlive' hafter hfits => exact hset _ fun _ => hafter
          | push hheld hheld' hlive' hafter hfits houtcome => exact hset _ fun _ => hafter
      · cases h
  | insert j =>
      simp only [step] at h
      split at h
      · cases h
        refine ⟨t, ?_, hlive⟩
        unfold insert
        dsimp only
        split
        · exact hi
        · exact getElem?_of_prefix (List.prefix_append _ _) hi
      · cases h
  | call size netMemoryDelta available reserved =>
      simp only [step] at h
      split at h
      · cases h
        exact ⟨t, hi, hlive⟩
      · cases h
  | shutdown =>
      cases h
      exact ⟨t, hi, hlive⟩
  | join | pop | pushed | shut | shutJoin | shutReturn =>
      simp only [step] at h
      repeat' split at h
      all_goals
        cases h
        try exact ⟨t, hi, hlive⟩

/-- A request is in the set, or was removed once and has at most one outcome. -/
theorem State.Sound.once (hs : s.Sound) {r : Request} (hr : r ∈ s.inserted) :
    r ∈ s.requests ∧ s.removed.count r = 0 ∧ s.answered r = 0 ∨
      r ∉ s.requests ∧ s.removed.count r = 1 ∧ s.answered r ≤ 1 := by
  have hpos := List.count_pos_iff.mpr hr
  have hone := hs.ledger.count_le_one r
  have hset := hs.ledger.set r
  have hout := hs.ledger.out r
  by_cases hmem : r ∈ s.requests
  · have hcount := List.count_pos_iff.mpr hmem
    exact .inl ⟨hmem, by omega, by omega⟩
  · have hcount := List.count_eq_zero.mpr hmem
    exact .inr ⟨hmem, by omega, by omega⟩

/-- Left to itself, with late passes, the instance keeps what holds of it. -/
theorem late_sound (hs : s.Sound) (h : (late cfg).After s s') : s'.Sound := by
  refine h.invariant (I := State.Sound) (fun s₁ l s₂ hs₁ hstep => ?_) hs
  exact step_sound hs₁ hstep.2.2

end Outcome

/-- No request is lost, and each is answered once. While requests are pending the flag is set and
one task will look at the set again; each request was removed from the set once or is in it, and
has at most one outcome, of the right size; and past the cap every run of the instance ends, with
every request removed once and answered once. -/
theorem answers_each_once (hs : (system cfg).Reachable s) :
    (s.requests ≠ [] → s.taskRunning = true ∧ ∃ (i : Nat) (t : Task), s.tasks[i]? = some t ∧
      t.Live ∧ ∀ l s', step cfg l s = some s' → ∃ t', s'.tasks[i]? = some t' ∧ t'.Live) ∧
    (∀ (i j : Nat) (t t' : Task), s.tasks[i]? = some t → t.Live → s.tasks[j]? = some t' →
      t'.Live → i = j) ∧
    (∀ r ∈ s.inserted, r ∈ s.requests ∧ s.removed.count r = 0 ∧ s.answered r = 0 ∨
      r ∉ s.requests ∧ s.removed.count r = 1 ∧ s.answered r ≤ 1) ∧
    (∀ x ∈ s.answers, x.2.Answers x.1) ∧
    (∀ run : Nat → State, run 0 = s → ¬ ∀ n, ∃ l, (late cfg).step (run n) l (run (n + 1))) ∧
    ∀ s', (late cfg).After s s' → (∀ l s'', ¬ (late cfg).step s' l s'') →
      ∀ r ∈ s'.inserted, s'.removed.count r = 1 ∧ s'.answered r = 1 := by
  have hsound := reachable_sound hs
  refine ⟨fun hpending => ?_, hsound.serving.single, fun r hr => hsound.once hr,
    hsound.genuine.answers, fun run _ => ?_, fun s' hafter hstuck r hr => ?_⟩
  · have hrunning := hsound.serving.pending hpending
    obtain ⟨i, t, hi, hlive⟩ := hsound.serving.running hrunning
    exact ⟨hrunning, i, t, hi, hlive, fun l s' h => live_stays hsound hpending hi hlive h⟩
  · exact System.not_infinite_of_measure (fun _ _ _ h => late_step_work h) run
  · have hsound' := late_sound hsound hafter
    exact (quiet_of_stuck hsound' hstuck).answered hsound' hr

/-- Two calls find no memory and wait. The task finds memory for the smaller one. -/
def smallerAdmitted : List Label :=
  [.call 5 0 0 0, .insert 0, .call 3 0 0 0, .insert 1, .task 0 (.start 0), .task 0 .look,
    .task 0 (.pass ⟨0, 0, 3, false⟩), .task 0 (.read 3), .task 0 (.admission 3 0),
    .task 0 (.push 1), .pushed 0, .pop 1]

/-- The smaller request is answered once, and the task goes on for the other one. -/
theorem answers_each_once_smaller :
    ∃ s : State, (system ⟨1, .device⟩).Reachable s ∧ s.requests = [⟨5, 0, 0⟩] ∧
      s.taskRunning = true ∧ s.removed.count ⟨5, 0, 0⟩ = 0 ∧ s.answered ⟨5, 0, 0⟩ = 0 ∧
      s.answers = [(⟨3, 0, 1⟩, .admitted 3)] ∧ s.removed.count ⟨3, 0, 1⟩ = 1 := by
  have hrun : ∃ s, smallerAdmitted.foldlM (fun s l => step ⟨1, .device⟩ l s) State.new = some s ∧
      s.requests = [⟨5, 0, 0⟩] ∧ s.inserted = [⟨5, 0, 0⟩, ⟨3, 0, 1⟩] ∧
      s.answers = [(⟨3, 0, 1⟩, .admitted 3)] := ⟨_, rfl, rfl, rfl, rfl⟩
  obtain ⟨s, hrun, hrequests, hinserted, hanswers⟩ := hrun
  have hreach : (system ⟨1, .device⟩).Reachable s :=
    (System.Reach.init rfl).exec (fun l _ s₁ s₂ h => ⟨trivial, h⟩) hrun
  obtain ⟨hserved, -, honce, -⟩ := answers_each_once hreach
  have hwaiting : s.removed.count ⟨5, 0, 0⟩ = 0 ∧ s.answered ⟨5, 0, 0⟩ = 0 := by
    rcases honce ⟨5, 0, 0⟩ (by simp [hinserted]) with ⟨-, hcounts⟩ | ⟨hmem, -⟩
    · exact hcounts
    · exact absurd (by simp [hrequests]) hmem
  have hremoved : s.removed.count ⟨3, 0, 1⟩ = 1 := by
    rcases honce ⟨3, 0, 1⟩ (by simp [hinserted]) with ⟨hmem, -⟩ | ⟨-, hcount, -⟩
    · simp [hrequests] at hmem
    · exact hcount
  exact ⟨s, hreach, hrequests, (hserved (by simp [hrequests])).1, hwaiting.1, hwaiting.2, hanswers,
    hremoved⟩

end Rapidsmpf.Streaming.ReserveOrWait
