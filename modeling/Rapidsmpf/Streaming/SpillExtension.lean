import Mathlib
import Rapidsmpf.Streaming.ReserveOrWait

/-!
# Waiting for a spill

The inner loop of `periodic_memory_check` as a function of what it observes: pass by pass the
clock, the spill manager and the buffer resource answer, and the admission succeeds or not. At
the timeout the loop waits on while a spill is in flight, until a completed spill has freed
nothing or the cap is reached, and looks once more after that. `extension_policy` says what this
amounts to for every stream of observations. Times count any unit of which the ticks of the clock
and the timeout are multiples.

A pass reads the spill count and the availability at most once before the admission: a window
that was not extended reads them when it is first extended, one that was reads them when a
completed spill is judged.
-/

namespace Rapidsmpf.Streaming.ReserveOrWait

open Protocol ListFacts

/-- One pass of the inner loop: what it observes at the timeout check, and when a request was
admitted, if one was. -/
structure Pass where
  obs : Observation
  admitted : Option Int

/-- The locals after one pass, or nothing when the inner loop is left. -/
def Window.next (cfg : Config) (w : Window) (p : Pass) : Option Window :=
  match w.pass cfg p.obs with
  | none => none
  | some w =>
      match p.admitted with
      | some now => some (w.admitted now)
      | none => some w

/-- The locals before the pass `k`, or nothing when the inner loop was left. -/
def windowAt (cfg : Config) (start : Int) (passes : Nat → Pass) : Nat → Option Window
  | 0 => some (.start start)
  | k + 1 =>
      match windowAt cfg start passes k with
      | none => none
      | some w => w.next cfg (passes k)

/-- The time of the last admission before the pass `k`, or of the start. -/
def lastSuccess (start : Int) (passes : Nat → Pass) : Nat → Int
  | 0 => start
  | k + 1 => (passes k).admitted.getD (lastSuccess start passes k)

/-- The clock is monotone. -/
structure Clocked (start : Int) (passes : Nat → Pass) : Prop where
  start : start ≤ (passes 0).obs.now
  now : ∀ k, (passes k).obs.now ≤ (passes (k + 1)).obs.now
  admitted : ∀ k t, (passes k).admitted = some t →
    (passes k).obs.now ≤ t ∧ t ≤ (passes (k + 1)).obs.now

/-- The timeout is exceeded. -/
def Window.TimedOut (cfg : Config) (w : Window) (obs : Observation) : Prop :=
  cfg.timeout < obs.now - w.lastReservationSuccess

instance (cfg : Config) (w : Window) (obs : Observation) : Decidable (w.TimedOut cfg obs) :=
  inferInstanceAs (Decidable (_ < _))

/-- The pass extends the window. -/
def Window.Extends (cfg : Config) (w : Window) (obs : Observation) : Prop :=
  w.TimedOut cfg obs ∧ (w.judge obs).keepWaiting cfg obs

/-- A completed spill is found to have raised the availability by nothing. -/
def Window.FindsNothing (cfg : Config) (w : Window) (obs : Observation) : Prop :=
  w.TimedOut cfg obs ∧ w.extendedAt.isSome = true ∧ w.spillStalled = false ∧
    obs.spillGeneration ≠ w.extendGeneration ∧ obs.available ≤ w.extendAvailable

/-- The window may not be extended: no spill is in flight, spilling has stalled, or the cap is
exceeded. -/
def Window.Barred (cfg : Config) (w : Window) (obs : Observation) : Prop :=
  obs.spillingNow = false ∨ (w.judge obs).spillStalled = true ∨
    11 * cfg.timeout < obs.now - w.lastReservationSuccess

section Pass

variable {cfg : Config} {w w' : Window} {obs : Observation} {p : Pass}

@[simp] theorem judge_lastReservationSuccess (w : Window) (obs : Observation) :
    (w.judge obs).lastReservationSuccess = w.lastReservationSuccess := by
  unfold Window.judge
  split <;> rfl

@[simp] theorem judge_extendedAt (w : Window) (obs : Observation) :
    (w.judge obs).extendedAt = w.extendedAt := by
  unfold Window.judge
  split <;> rfl

@[simp] theorem judge_recheckAfterSpill (w : Window) (obs : Observation) :
    (w.judge obs).recheckAfterSpill = w.recheckAfterSpill := by
  unfold Window.judge
  split <;> rfl

/-- What was found to be stalled stays so. -/
theorem judge_stalled (h : w.spillStalled = true) : (w.judge obs).spillStalled = true := by
  unfold Window.judge
  rw [if_neg (by simp [h])]
  exact h

theorem Window.FindsNothing.stalled (h : w.FindsNothing cfg obs) :
    (w.judge obs).spillStalled = true := by
  obtain ⟨-, hextended, hstalled, hgeneration, havailable⟩ := h
  unfold Window.judge
  rw [if_pos ⟨hextended, hstalled, hgeneration⟩]
  exact decide_eq_true havailable

/-- The branches of the timeout check. -/
inductive Branch (cfg : Config) (w : Window) (obs : Observation) : Option Window → Prop where
  | early (h : ¬ w.TimedOut cfg obs) : Branch cfg w obs (some w)
  | extended {w' : Window} (h : w.Extends cfg obs) (hrecheck : w'.recheckAfterSpill = true)
      (hlast : w'.lastReservationSuccess = w.lastReservationSuccess) : Branch cfg w obs (some w')
  | rechecked (h : w.TimedOut cfg obs) (hbarred : ¬ w.Extends cfg obs)
      (hrecheck : w.recheckAfterSpill = true) :
      Branch cfg w obs (some { w.judge obs with recheckAfterSpill := false })
  | left (h : w.TimedOut cfg obs) (hbarred : ¬ w.Extends cfg obs)
      (hrecheck : w.recheckAfterSpill = false) : Branch cfg w obs none

theorem pass_branch (cfg : Config) (w : Window) (obs : Observation) :
    Branch cfg w obs (w.pass cfg obs) := by
  unfold Window.pass
  split
  · next htimeout =>
      dsimp only
      split
      · next hkeep =>
          split
          · exact .extended ⟨htimeout, hkeep⟩ rfl (judge_lastReservationSuccess w obs)
          · exact .extended ⟨htimeout, hkeep⟩ rfl (judge_lastReservationSuccess w obs)
      · next hkeep =>
          have hbarred : ¬ w.Extends cfg obs := fun h => hkeep h.2
          split
          · next hrecheck =>
              rw [judge_recheckAfterSpill] at hrecheck
              exact .rechecked htimeout hbarred hrecheck
          · next hrecheck =>
              rw [judge_recheckAfterSpill] at hrecheck
              exact .left htimeout hbarred (Bool.eq_false_iff.mpr hrecheck)
  · next htimeout => exact .early htimeout

theorem Window.Barred.not_extends (h : w.Barred cfg obs) : ¬ w.Extends cfg obs := by
  rintro ⟨-, -, hstalled, hcap, hspilling⟩
  rcases h with h | h | h
  · rw [h] at hspilling
    cases hspilling
  · rw [h] at hstalled
    cases hstalled
  · rw [judge_lastReservationSuccess, spillWaitCapFactor] at hcap
    omega

/-- A pass that neither extends the window nor is the one after an extension leaves the loop. -/
theorem pass_eq_none_iff : w.pass cfg obs = none ↔
    w.TimedOut cfg obs ∧ ¬ w.Extends cfg obs ∧ w.recheckAfterSpill = false := by
  have hbranch := pass_branch cfg w obs
  constructor
  · intro h
    rw [h] at hbranch
    cases hbranch with
    | left htimeout hbarred hrecheck => exact ⟨htimeout, hbarred, hrecheck⟩
  · rintro ⟨htimeout, hbarred, hrecheck⟩
    generalize w.pass cfg obs = result at hbranch
    cases hbranch with
    | early h => exact absurd htimeout h
    | extended h => exact absurd h hbarred
    | rechecked _ _ h =>
        rw [hrecheck] at h
        cases h
    | left => rfl

theorem pass_lastReservationSuccess (h : w.pass cfg obs = some w') :
    w'.lastReservationSuccess = w.lastReservationSuccess := by
  have hbranch := pass_branch cfg w obs
  rw [h] at hbranch
  cases hbranch with
  | early => rfl
  | extended _ _ hlast => exact hlast
  | rechecked => exact judge_lastReservationSuccess w obs

/-- A pass that extends the window asks for another one. -/
theorem pass_recheck_of_extends (hextends : w.Extends cfg obs) (h : w.pass cfg obs = some w') :
    w'.recheckAfterSpill = true := by
  have hbranch := pass_branch cfg w obs
  rw [h] at hbranch
  cases hbranch with
  | early hearly => exact absurd hextends.1 hearly
  | extended _ hrecheck => exact hrecheck
  | rechecked _ hbarred => exact absurd hextends hbarred

/-- A timed-out pass that does not extend the window gives no further one. -/
theorem pass_recheck_of_barred (htimeout : w.TimedOut cfg obs) (hbarred : ¬ w.Extends cfg obs)
    (h : w.pass cfg obs = some w') : w'.recheckAfterSpill = false := by
  have hbranch := pass_branch cfg w obs
  rw [h] at hbranch
  cases hbranch with
  | early hearly => exact absurd htimeout hearly
  | extended hextends => exact absurd hextends hbarred
  | rechecked => rfl

/-- Spilling that is found to be stalled stays so through the pass. -/
theorem pass_stalled (htimeout : w.TimedOut cfg obs)
    (hstalled : (w.judge obs).spillStalled = true) (h : w.pass cfg obs = some w') :
    w'.spillStalled = true := by
  have hbranch := pass_branch cfg w obs
  rw [h] at hbranch
  cases hbranch with
  | early hearly => exact absurd htimeout hearly
  | extended hextends => exact absurd hextends (Window.Barred.not_extends (.inr (.inl hstalled)))
  | rechecked => exact hstalled

/-- And so does spilling that was found to be stalled before. -/
theorem pass_stalled_of_stalled (hstalled : w.spillStalled = true)
    (h : w.pass cfg obs = some w') : w'.spillStalled = true := by
  by_cases htimeout : w.TimedOut cfg obs
  · exact pass_stalled htimeout (judge_stalled hstalled) h
  · have hbranch := pass_branch cfg w obs
    rw [h] at hbranch
    cases hbranch with
    | early => exact hstalled
    | extended hextends => exact absurd hextends.1 htimeout
    | rechecked htimeout' => exact absurd htimeout' htimeout

/-- What progress is judged against is kept, or is what the pass observes. -/
theorem pass_basis (h : w.pass cfg obs = some w') (hextended : w'.extendedAt.isSome = true) :
    w.extendedAt.isSome = true ∧ w'.extendGeneration = w.extendGeneration ∧
      w'.extendAvailable = w.extendAvailable ∨
    w.TimedOut cfg obs ∧ w'.extendGeneration = obs.spillGeneration ∧
      w'.extendAvailable = obs.available := by
  have hjudge : (w.judge obs).extendGeneration = w.extendGeneration ∧
        (w.judge obs).extendAvailable = w.extendAvailable ∨
      (w.judge obs).extendGeneration = obs.spillGeneration ∧
        (w.judge obs).extendAvailable = obs.available := by
    unfold Window.judge
    split
    · exact .inr ⟨rfl, rfl⟩
    · exact .inl ⟨rfl, rfl⟩
  unfold Window.pass at h
  split at h
  · next htimeout =>
      dsimp only at h
      split at h
      · split at h
        · next t ht =>
            cases h
            rw [judge_extendedAt] at ht
            refine hjudge.imp (fun h => ⟨?_, h⟩) fun h => ⟨htimeout, h⟩
            rw [ht]
            rfl
        · cases h
          exact .inr ⟨htimeout, rfl, rfl⟩
      · split at h
        · cases h
          have hbefore : w.extendedAt.isSome = true := judge_extendedAt w obs ▸ hextended
          exact hjudge.imp (fun h => ⟨hbefore, h⟩) fun h => ⟨htimeout, h⟩
        · cases h
  · cases h
    exact .inl ⟨hextended, rfl, rfl⟩

/-- A pass without an admission. -/
theorem next_eq_pass (hp : p.admitted = none) : w.next cfg p = w.pass cfg p.obs := by
  unfold Window.next
  rw [hp]
  cases w.pass cfg p.obs <;> rfl

theorem next_eq_none_iff : w.next cfg p = none ↔ w.pass cfg p.obs = none := by
  unfold Window.next
  cases w.pass cfg p.obs with
  | none => exact iff_of_true rfl rfl
  | some w' => cases p.admitted <;> exact iff_of_false nofun nofun

end Pass

section Stream

variable {cfg : Config} {start : Int} {passes : Nat → Pass} {w w' : Window} {k m : Nat}

theorem windowAt_succ (h : windowAt cfg start passes k = some w) :
    windowAt cfg start passes (k + 1) = w.next cfg (passes k) := by
  rw [windowAt, h]

theorem windowAt_succ_some (h : windowAt cfg start passes (k + 1) = some w') :
    ∃ w, windowAt cfg start passes k = some w ∧ w.next cfg (passes k) = some w' := by
  cases hk : windowAt cfg start passes k with
  | none =>
      rw [windowAt, hk] at h
      cases h
  | some w => exact ⟨w, rfl, windowAt_succ hk ▸ h⟩

/-- The time from which the timeout counts is that of the last admission. -/
theorem windowAt_lastSuccess (h : windowAt cfg start passes k = some w) :
    w.lastReservationSuccess = lastSuccess start passes k := by
  induction k generalizing w with
  | zero =>
      cases h
      rfl
  | succ k ih =>
      obtain ⟨w₀, hw₀, hnext⟩ := windowAt_succ_some h
      unfold Window.next at hnext
      split at hnext
      · cases hnext
      · next w₁ hpass =>
          split at hnext
          · next t hadmitted =>
              cases hnext
              simp [lastSuccess, hadmitted, Window.admitted]
          · next hadmitted =>
              cases hnext
              rw [pass_lastReservationSuccess hpass, ih hw₀]
              simp [lastSuccess, hadmitted]

theorem lastSuccess_le (hclock : Clocked start passes) (k : Nat) :
    lastSuccess start passes k ≤ (passes k).obs.now := by
  induction k with
  | zero => exact hclock.start
  | succ k ih =>
      rw [lastSuccess]
      cases hadmitted : (passes k).admitted with
      | none => exact ih.trans (hclock.now k)
      | some t => exact (hclock.admitted k t hadmitted).2

/-- Once the timeout is exceeded it stays so until an admission. -/
theorem timed_out_stays (hclock : Clocked start passes)
    (hk : windowAt cfg start passes k = some w) (hk' : windowAt cfg start passes (k + 1) = some w')
    (htimeout : w.TimedOut cfg (passes k).obs) (hquiet : (passes k).admitted = none) :
    w'.TimedOut cfg (passes (k + 1)).obs := by
  have hlast : w'.lastReservationSuccess = w.lastReservationSuccess := by
    rw [windowAt_lastSuccess hk', windowAt_lastSuccess hk, lastSuccess, hquiet]
    rfl
  have hnow := hclock.now k
  unfold Window.TimedOut at *
  rw [hlast]
  omega

/-- While nothing is admitted, stalled spilling stays stalled. -/
theorem stalled_stays (hk : windowAt cfg start passes k = some w) (hstalled : w.spillStalled = true)
    (hkm : k ≤ m) (hquiet : ∀ i, k ≤ i → i < m → (passes i).admitted = none)
    (hm : windowAt cfg start passes m = some w') : w'.spillStalled = true := by
  induction m, hkm using Nat.le_induction generalizing w' with
  | base =>
      cases hk.symm.trans hm
      exact hstalled
  | succ m hkm ih =>
      obtain ⟨w₀, hw₀, hnext⟩ := windowAt_succ_some hm
      rw [next_eq_pass (hquiet m hkm (Nat.lt_succ_self m))] at hnext
      refine pass_stalled_of_stalled (ih (fun i hi hlt => ?_) hw₀) hnext
      exact hquiet i hi (Nat.lt_succ_of_lt hlt)

end Stream

/-- The pass `k` extends the window. -/
def ExtendsAt (cfg : Config) (start : Int) (passes : Nat → Pass) (k : Nat) : Prop :=
  ∃ w, windowAt cfg start passes k = some w ∧ w.Extends cfg (passes k).obs

/-- The pass `k` leaves the inner loop, and a request is forced out. -/
def ForcesAt (cfg : Config) (start : Int) (passes : Nat → Pass) (k : Nat) : Prop :=
  ∃ w, windowAt cfg start passes k = some w ∧ w.pass cfg (passes k).obs = none

/-- The pass `k` is timed out. -/
def TimedOutAt (cfg : Config) (start : Int) (passes : Nat → Pass) (k : Nat) : Prop :=
  ∃ w, windowAt cfg start passes k = some w ∧ w.TimedOut cfg (passes k).obs

/-- The pass `k` is timed out and may not extend the window. -/
def BarredAt (cfg : Config) (start : Int) (passes : Nat → Pass) (k : Nat) : Prop :=
  ∃ w, windowAt cfg start passes k = some w ∧ w.TimedOut cfg (passes k).obs ∧
    (cfg.memType ≠ .device ∨ w.Barred cfg (passes k).obs)

/-- Progress is judged against what a timed-out pass of the same window observed. -/
theorem extended_basis {cfg : Config} {start : Int} {passes : Nat → Pass} {w : Window} {k : Nat}
    (h : windowAt cfg start passes k = some w) (hextended : w.extendedAt.isSome = true) :
    ∃ j < k, TimedOutAt cfg start passes j ∧
      (∀ i, j ≤ i → i < k → (passes i).admitted = none) ∧
      w.extendGeneration = (passes j).obs.spillGeneration ∧
      w.extendAvailable = (passes j).obs.available := by
  induction k generalizing w with
  | zero =>
      cases h
      cases hextended
  | succ k ih =>
      obtain ⟨w₀, hw₀, hnext⟩ := windowAt_succ_some h
      cases hadmitted : (passes k).admitted with
      | some t =>
          -- an admission ends the extension
          unfold Window.next at hnext
          rw [hadmitted] at hnext
          split at hnext
          · cases hnext
          · cases hnext
            cases hextended
      | none =>
          rw [next_eq_pass hadmitted] at hnext
          rcases pass_basis hnext hextended with ⟨hbefore, hgeneration, havailable⟩ | hnow
          · obtain ⟨j, hj, htimeout, hquiet, hgen, havail⟩ := ih hw₀ hbefore
            refine ⟨j, Nat.lt_succ_of_lt hj, htimeout, fun i hi hlt => ?_,
              hgeneration.trans hgen, havailable.trans havail⟩
            rcases Nat.lt_succ_iff_lt_or_eq.mp hlt with hlt | rfl
            · exact hquiet i hi hlt
            · exact hadmitted
          · refine ⟨k, Nat.lt_succ_self k, ⟨w₀, hw₀, hnow.1⟩, fun i hi hlt => ?_, hnow.2⟩
            obtain rfl : i = k := by omega
            exact hadmitted

/-- In the pass `k` a completed spill is found to have raised the availability by nothing. -/
def FindsNothingAt (cfg : Config) (start : Int) (passes : Nat → Pass) (k : Nat) : Prop :=
  ∃ w, windowAt cfg start passes k = some w ∧ w.FindsNothing cfg (passes k).obs

/-- No request is admitted in the passes from `k` up to `m`. -/
def Quiet (passes : Nat → Pass) (k m : Nat) : Prop :=
  ∀ i, k ≤ i → i < m → (passes i).admitted = none

/-- The policy of waiting for a spill. -/
structure ExtensionPolicy (cfg : Config) (start : Int) (passes : Nat → Pass) : Prop where
  /-- Only device reservations wait. -/
  deviceOnly : cfg.memType ≠ .device → ∀ k, ¬ ExtendsAt cfg start passes k
  /-- The wait continues only while a spill is in flight. -/
  inFlight : ∀ k, ExtendsAt cfg start passes k → (passes k).obs.spillingNow = true
  /-- Once a spill frees nothing, the wait is over until the next admission. -/
  final : ∀ k m, k ≤ m → FindsNothingAt cfg start passes k → Quiet passes k m →
    ¬ ExtendsAt cfg start passes m
  /-- A pass that extends goes on to the admission, and where this admits nothing so does the
  pass after it. -/
  recheck : ∀ k, ExtendsAt cfg start passes k → ¬ ForcesAt cfg start passes k ∧
    ((passes k).admitted = none → ¬ ForcesAt cfg start passes (k + 1))
  /-- Of two consecutive timed-out passes that may not extend, the second forces a request. -/
  second : ∀ k m, k < m → (∀ i, k < i → i < m → ¬ TimedOutAt cfg start passes i) →
    Quiet passes k m → BarredAt cfg start passes k → BarredAt cfg start passes m →
    ForcesAt cfg start passes m
  /-- At most two passes begin later than the cap. -/
  bounded : ∀ k, 11 * cfg.timeout < (passes k).obs.now - lastSuccess start passes k →
    (passes k).admitted = none → windowAt cfg start passes (k + 2) = none

section Policy

variable {cfg : Config} {start : Int} {passes : Nat → Pass} {k m : Nat}

theorem barredAt_not_extends {w : Window} {obs : Observation}
    (h : cfg.memType ≠ .device ∨ w.Barred cfg obs) : ¬ w.Extends cfg obs := by
  rcases h with h | h
  · exact fun hextends => h hextends.2.1
  · exact h.not_extends

theorem FindsNothingAt.not_extends (hkm : k ≤ m) (h : FindsNothingAt cfg start passes k)
    (hquiet : Quiet passes k m) : ¬ ExtendsAt cfg start passes m := by
  obtain ⟨w, hw, hfinds⟩ := h
  rintro ⟨w', hw', hextends⟩
  rcases Nat.eq_or_lt_of_le hkm with rfl | hlt
  · cases hw.symm.trans hw'
    exact Window.Barred.not_extends (.inr (.inl hfinds.stalled)) hextends
  · cases hnext : windowAt cfg start passes (k + 1) with
    | none =>
        -- the loop was left in the pass `k`
        have hnone : ∀ j, k + 1 ≤ j → windowAt cfg start passes j = none := by
          intro j hj
          induction j, hj using Nat.le_induction with
          | base => exact hnext
          | succ j _ ih => rw [windowAt, ih]
        rw [hnone m hlt] at hw'
        cases hw'
    | some w₁ =>
        have hpass : w.pass cfg (passes k).obs = some w₁ := by
          rw [← next_eq_pass (hquiet k (Nat.le_refl k) hlt), ← windowAt_succ hw, hnext]
        have hstalled := pass_stalled hfinds.1 hfinds.stalled hpass
        have hstalled' := stalled_stays hnext hstalled hlt
          (fun i hi => hquiet i (Nat.le_of_succ_le hi)) hw'
        exact Window.Barred.not_extends (.inr (.inl (judge_stalled hstalled'))) hextends

theorem ExtendsAt.not_forces (h : ExtendsAt cfg start passes k) :
    ¬ ForcesAt cfg start passes k ∧
      ((passes k).admitted = none → ¬ ForcesAt cfg start passes (k + 1)) := by
  obtain ⟨w, hw, hextends⟩ := h
  constructor
  · rintro ⟨w', hw', hnone⟩
    cases hw.symm.trans hw'
    exact (pass_eq_none_iff.mp hnone).2.1 hextends
  · rintro hquiet ⟨w', hw', hnone⟩
    rw [windowAt_succ hw, next_eq_pass hquiet] at hw'
    have hrecheck := pass_recheck_of_extends hextends hw'
    rw [(pass_eq_none_iff.mp hnone).2.2] at hrecheck
    cases hrecheck

/-- The second of two adjacent passes that may not extend. -/
theorem BarredAt.forces_succ (hquiet : (passes k).admitted = none)
    (h : BarredAt cfg start passes k) (h' : BarredAt cfg start passes (k + 1)) :
    ForcesAt cfg start passes (k + 1) := by
  obtain ⟨w, hw, htimeout, hbarred⟩ := h
  obtain ⟨w', hw', htimeout', hbarred'⟩ := h'
  have hpass := hw'
  rw [windowAt_succ hw, next_eq_pass hquiet] at hpass
  have hrecheck := pass_recheck_of_barred htimeout (barredAt_not_extends hbarred) hpass
  exact ⟨w', hw', pass_eq_none_iff.mpr ⟨htimeout', barredAt_not_extends hbarred', hrecheck⟩⟩

/-- A pass that is reached is reached through the one before it. -/
theorem windowAt_before {w' : Window} (hkm : k ≤ m)
    (hm : windowAt cfg start passes m = some w') : ∃ w, windowAt cfg start passes k = some w := by
  induction m, hkm using Nat.le_induction generalizing w' with
  | base => exact ⟨w', hm⟩
  | succ m _ ih =>
      obtain ⟨w, hw, -⟩ := windowAt_succ_some hm
      exact ih hw

/-- With a monotone clock, timed-out passes without an admission between them are adjacent. -/
theorem BarredAt.forces (hclock : Clocked start passes) (hkm : k < m)
    (hbetween : ∀ i, k < i → i < m → ¬ TimedOutAt cfg start passes i)
    (hquiet : Quiet passes k m) (h : BarredAt cfg start passes k)
    (h' : BarredAt cfg start passes m) : ForcesAt cfg start passes m := by
  rcases Nat.eq_or_lt_of_le hkm with rfl | hlt
  · exact h.forces_succ (hquiet k (Nat.le_refl k) hkm) h'
  · obtain ⟨w, hw, htimeout, -⟩ := h
    obtain ⟨w', hw', -⟩ := h'
    obtain ⟨w₁, hw₁⟩ := windowAt_before hlt.le hw'
    have htimeout₁ := timed_out_stays hclock hw hw₁ htimeout (hquiet k (Nat.le_refl k) hkm)
    exact absurd ⟨w₁, hw₁, htimeout₁⟩ (hbetween (k + 1) (Nat.lt_succ_self k) hlt)

/-- A pass that begins later than the cap is timed out and may not extend. -/
theorem barredAt_of_late (hclock : Clocked start passes) {w : Window}
    (hw : windowAt cfg start passes k = some w)
    (hlate : 11 * cfg.timeout < (passes k).obs.now - lastSuccess start passes k) :
    BarredAt cfg start passes k := by
  have hlast := windowAt_lastSuccess hw
  have hclocked := lastSuccess_le hclock k
  refine ⟨w, hw, ?_, .inr (.inr (.inr ?_))⟩
  · unfold Window.TimedOut
    omega
  · omega

theorem windowAt_of_late (hclock : Clocked start passes)
    (hlate : 11 * cfg.timeout < (passes k).obs.now - lastSuccess start passes k)
    (hquiet : (passes k).admitted = none) : windowAt cfg start passes (k + 2) = none := by
  cases hk : windowAt cfg start passes k with
  | none => rw [windowAt, windowAt, hk]
  | some w =>
      cases hk' : windowAt cfg start passes (k + 1) with
      | none => rw [windowAt, hk']
      | some w' =>
          have hlate' : 11 * cfg.timeout <
              (passes (k + 1)).obs.now - lastSuccess start passes (k + 1) := by
            have hlast : lastSuccess start passes (k + 1) = lastSuccess start passes k := by
              rw [lastSuccess, hquiet]
              rfl
            have hnow := hclock.now k
            omega
          obtain ⟨w'', hw'', hnone⟩ :=
            (barredAt_of_late hclock hk hlate).forces_succ hquiet
              (barredAt_of_late hclock hk' hlate')
          rw [windowAt_succ hw'', next_eq_none_iff]
          exact hnone

end Policy

/-- For every stream of observations, the wait for a spill is bounded and final. -/
theorem extension_policy (cfg : Config) (start : Int) (passes : Nat → Pass)
    (hclock : Clocked start passes) : ExtensionPolicy cfg start passes where
  deviceOnly hdevice k := by
    rintro ⟨w, -, -, hkeep⟩
    exact hdevice hkeep.1
  inFlight k := by
    rintro ⟨w, -, -, hkeep⟩
    exact hkeep.2.2.2
  final k m hkm hfinds hquiet := hfinds.not_extends hkm hquiet
  recheck k hextends := hextends.not_forces
  second k m hkm hbetween hquiet h h' := h.forces hclock hkm hbetween hquiet h'
  bounded k hlate hquiet := windowAt_of_late hclock hlate hquiet

/-- A spill in flight all the time, without a completion and without memory. -/
theorem extension_policy_spilling :
    windowAt ⟨10, .device⟩ 0 (fun k => ⟨⟨k * 20, 0, 0, true⟩, none⟩) 8 = none :=
  (extension_policy ⟨10, .device⟩ 0 (fun k => ⟨⟨k * 20, 0, 0, true⟩, none⟩)
    { start := by decide
      now := fun k => by simp only; omega
      admitted := fun k t h => nomatch h }).bounded 6 (by decide) rfl

/-! ## The running task -/

/-- Locals that some stream of observations leads to. -/
def Reached (cfg : Config) (w : Window) : Prop :=
  ∃ start passes k, windowAt cfg start passes k = some w

/-- Only the passes before it decide what the locals are. -/
theorem windowAt_congr {cfg : Config} {start : Int} {passes passes' : Nat → Pass} {k : Nat}
    (h : ∀ i < k, passes i = passes' i) :
    windowAt cfg start passes k = windowAt cfg start passes' k := by
  induction k with
  | zero => rfl
  | succ k ih =>
      rw [windowAt, windowAt, ih fun i hi => h i (Nat.lt_succ_of_lt hi), h k (Nat.lt_succ_self k)]

theorem Reached.next {cfg : Config} {w w' : Window} {p : Pass} (h : Reached cfg w)
    (hnext : w.next cfg p = some w') : Reached cfg w' := by
  obtain ⟨start, passes, k, hw⟩ := h
  have hsame : ∀ i < k, passes i = Function.update passes k p i := fun i hi =>
    (Function.update_of_ne hi.ne p passes).symm
  refine ⟨start, Function.update passes k p, k + 1, ?_⟩
  rw [windowAt_succ (windowAt_congr hsame ▸ hw), Function.update_self]
  exact hnext

/-- The locals of a periodic task are those of the loop over some stream. -/
def Task.Follows (cfg : Config) : Task → Prop
  | .top w => Reached cfg w
  | .yielding w => Reached cfg w
  | .reading w => ∃ w₀ obs, Reached cfg w₀ ∧ w₀.pass cfg obs = some w
  | .admitting w _ => ∃ w₀ obs, Reached cfg w₀ ∧ w₀.pass cfg obs = some w
  | .admitted w _ _ => ∃ w₀ obs, Reached cfg w₀ ∧ w₀.pass cfg obs = some w
  | _ => True

section Running

variable {cfg : Config} {s s' : State}

/-- The admission of a pass has an outcome. -/
theorem reached_outcome {w : Window} (h : ∃ w₀ obs, Reached cfg w₀ ∧ w₀.pass cfg obs = some w) :
    Reached cfg w ∧ ∀ now, Reached cfg (w.admitted now) := by
  obtain ⟨w₀, obs, hreached, hpass⟩ := h
  refine ⟨hreached.next (p := ⟨obs, none⟩) ?_, fun now => hreached.next (p := ⟨obs, some now⟩) ?_⟩
  · rw [next_eq_pass rfl]
    exact hpass
  · simp only [Window.next, hpass]

theorem taskStep_follows {i : Nat} {l : TaskLabel} {t : Task} (ht : t.Follows cfg)
    (h : taskStep cfg s i l t = some s') :
    ∃ t', s'.tasks = s.tasks.set i t' ∧ t'.Follows cfg := by
  unfold taskStep at h
  split at h
  case h_1 now =>
    cases h
    exact ⟨_, rfl, now, fun _ => ⟨⟨0, 0, 0, false⟩, none⟩, 0, rfl⟩
  case h_2 w =>
    split at h
    · cases h
      exact ⟨_, rfl, trivial⟩
    · cases h
      exact ⟨_, rfl, ht⟩
  case h_3 obs w =>
    split at h
    · next w' hpass =>
        cases h
        exact ⟨_, rfl, w, obs, ht, hpass⟩
    · cases h
      exact ⟨_, rfl, trivial⟩
  case h_4 =>
    cases h
    exact ⟨_, rfl, ht⟩
  case h_5 =>
    split at h
    · cases h
      exact ⟨_, rfl, (reached_outcome ht).1⟩
    · split at h
      · split at h
        · cases h
          exact ⟨_, rfl, (reached_outcome ht).1⟩
        · cases h
          exact ⟨_, rfl, ht⟩
      · cases h
  case h_6 now w r size =>
    cases h
    exact ⟨_, rfl, (reached_outcome ht).2 now⟩
  case h_7 =>
    split at h
    · cases h
      exact ⟨_, rfl, trivial⟩
    · cases h
      exact ⟨_, rfl, trivial⟩
  case h_8 =>
    split at h
    · cases h
      exact ⟨_, rfl, trivial⟩
    · cases h
  case h_9 =>
    cases h
    exact ⟨_, rfl, trivial⟩
  case h_10 => cases h

/-- An insertion leaves the tasks alone, or starts one. -/
theorem insert_tasks (s : State) (i size : Nat) (netMemoryDelta : Int) :
    (insert s i size netMemoryDelta).tasks = s.tasks ∨
      (insert s i size netMemoryDelta).tasks = s.tasks ++ [.starting] := by
  unfold ReserveOrWait.insert
  dsimp only
  split
  · exact .inl rfl
  · exact .inr rfl

/-- In every reachable state, the locals of the periodic tasks are those of the loop. -/
theorem reachable_follows (hs : (system cfg).Reachable s) : ∀ t ∈ s.tasks, t.Follows cfg := by
  refine hs.invariant (I := fun s => ∀ t ∈ s.tasks, t.Follows cfg) ?_ fun s l s' h hstep => ?_
  · rintro s rfl
    exact nofun
  · rcases step_cases hstep with ⟨i, l', t, ht, htask⟩ | ⟨i, size, netMemoryDelta, rfl⟩ | ⟨hsame, -⟩
    · obtain ⟨t', htasks, hfollows⟩ := taskStep_follows (h t (List.mem_of_getElem? ht)) htask
      rw [htasks]
      exact forall_mem_set h hfollows
    · rcases insert_tasks s i size netMemoryDelta with hsame | hstarted
      · rw [hsame]
        exact h
      · rw [hstarted]
        exact forall_mem_concat h trivial
    · rw [hsame]
      exact h

end Running

end Rapidsmpf.Streaming.ReserveOrWait
