import Mathlib
import Rapidsmpf.Lib.Transition

/-!
# Generation barriers

A barrier of a monitor that is used again and again. Whoever enters reads the generation and is
counted; the last one begins the next generation, resets the count and notifies the others, who wait
until the generation differs from the one they have read. A wait may end without a notification and
goes on when the generation is still the same. `Inv` relates the generation, the count and how often
each participant has entered and left.
-/

namespace GenerationBarrier

open Protocol

universe u

/-- Where a participant is. One that is awake has still to compare the generations. -/
inductive Stage where
  | outside
  | waiting (gen : Nat)
  | awake (gen : Nat)
  | released
deriving DecidableEq

inductive Action where
  | enter
  | wake
  | recheck
  | leave
deriving DecidableEq

/-- The barrier, the participants, and how often each has entered and left. -/
structure State (ι : Type u) where
  gen : Nat
  count : Nat
  stage : ι → Stage
  entered : ι → Nat
  left : ι → Nat

/-- Those who wait are woken. -/
def Stage.notify : Stage → Stage
  | .waiting gen => .awake gen
  | stage => stage

variable {ι : Type u} [Fintype ι] [DecidableEq ι]

/-- A step of a participant. -/
def step (l : ι × Action) (s : State ι) : Option (State ι) :=
  match l.2, s.stage l.1 with
  | .enter, .outside =>
      if s.count + 1 = Fintype.card ι then
        some { s with
          gen := s.gen + 1
          count := 0
          stage := Function.update (fun j => (s.stage j).notify) l.1 .released
          entered := Function.update s.entered l.1 (s.entered l.1 + 1) }
      else
        some { s with
          count := s.count + 1
          stage := Function.update s.stage l.1 (.waiting s.gen)
          entered := Function.update s.entered l.1 (s.entered l.1 + 1) }
  | .wake, .waiting gen => some { s with stage := Function.update s.stage l.1 (.awake gen) }
  | .recheck, .awake gen =>
      some { s with
        stage := Function.update s.stage l.1 (if s.gen ≠ gen then .released else .waiting gen) }
  | .leave, .released =>
      some { s with
        stage := Function.update s.stage l.1 .outside
        left := Function.update s.left l.1 (s.left l.1 + 1) }
  | _, _ => none

section Equations

variable {s : State ι} {i : ι} {gen : Nat}

theorem step_enter_last (hstage : s.stage i = .outside) (hlast : s.count + 1 = Fintype.card ι) :
    step (i, .enter) s = some { s with
      gen := s.gen + 1
      count := 0
      stage := Function.update (fun j => (s.stage j).notify) i .released
      entered := Function.update s.entered i (s.entered i + 1) } := by
  simp [step, hstage, hlast]

theorem step_enter_more (hstage : s.stage i = .outside) (hmore : s.count + 1 ≠ Fintype.card ι) :
    step (i, .enter) s = some { s with
      count := s.count + 1
      stage := Function.update s.stage i (.waiting s.gen)
      entered := Function.update s.entered i (s.entered i + 1) } := by
  simp [step, hstage, hmore]

theorem step_wake (hstage : s.stage i = .waiting gen) :
    step (i, .wake) s = some { s with stage := Function.update s.stage i (.awake gen) } := by
  simp [step, hstage]

theorem step_recheck (hstage : s.stage i = .awake gen) :
    step (i, .recheck) s = some { s with
      stage := Function.update s.stage i (if s.gen ≠ gen then .released else .waiting gen) } := by
  simp [step, hstage]

theorem step_leave (hstage : s.stage i = .released) :
    step (i, .leave) s = some { s with
      stage := Function.update s.stage i .outside
      left := Function.update s.left i (s.left i + 1) } := by
  simp [step, hstage]

end Equations

/-- The runs of the barrier. -/
def system (ι : Type u) [Fintype ι] [DecidableEq ι] : System (State ι) (ι × Action) where
  init s := s.gen = 0 ∧ s.count = 0 ∧ ∀ i, s.stage i = .outside ∧ s.entered i = 0 ∧ s.left i = 0
  step s l s' := step l s = some s'

/-- What a participant's stage says of the numbers of times it has entered and left. -/
def Stage.Fits (stage : Stage) (gen entered left : Nat) : Prop :=
  match stage with
  | .outside => entered = gen ∧ left = gen
  | .waiting g => g = gen ∧ entered = g + 1 ∧ left = g
  | .awake g => g ≤ gen ∧ entered = g + 1 ∧ left = g
  | .released => entered = gen ∧ left + 1 = gen

/-- The participants counted in this generation. -/
def arrived (s : State ι) : Finset ι := Finset.univ.filter fun i => s.entered i = s.gen + 1

/-- The invariant: each participant has entered as often as the generation says, or once more, and
those are the ones counted, never all of them. -/
structure Inv (s : State ι) : Prop where
  entered : ∀ i, s.entered i = s.gen ∨ s.entered i = s.gen + 1
  count : s.count = (arrived s).card
  open_ : ∀ _ : ι, s.count < Fintype.card ι
  fits : ∀ i, (s.stage i).Fits s.gen (s.entered i) (s.left i)

variable {s s' : State ι} {i : ι}

omit [DecidableEq ι] in
theorem mem_arrived : i ∈ arrived s ↔ s.entered i = s.gen + 1 := by
  simp [arrived]

theorem Inv.init (h : (system ι).init s) : Inv s := by
  obtain ⟨hgen, hcount, hall⟩ := h
  refine ⟨fun i => .inl ?_, ?_, fun i => ?_, fun i => ?_⟩
  · rw [(hall i).2.1, hgen]
  · rw [hcount, eq_comm, Finset.card_eq_zero, Finset.eq_empty_iff_forall_notMem]
    intro i hi
    rw [mem_arrived, (hall i).2.1] at hi
    exact absurd hi (Nat.succ_ne_zero _).symm
  · rw [hcount]
    exact Fintype.card_pos_iff.mpr ⟨i⟩
  · obtain ⟨hstage, hentered, hleft⟩ := hall i
    rw [hstage, hentered, hleft, hgen]
    exact ⟨rfl, rfl⟩

/-- When the next one to enter is the last, all others have entered. -/
theorem Inv.last (hs : Inv s) (hi : s.entered i = s.gen)
    (hlast : s.count + 1 = Fintype.card ι) {j : ι} (hj : j ≠ i) : s.entered j = s.gen + 1 := by
  have hsub : arrived s ⊆ Finset.univ.erase i := by
    intro k hk
    refine Finset.mem_erase.mpr ⟨fun hki => ?_, Finset.mem_univ k⟩
    rw [mem_arrived, hki, hi] at hk
    exact absurd hk (Nat.succ_ne_self _).symm
  have hcard : (Finset.univ.erase i).card = (arrived s).card := by
    rw [Finset.card_erase_of_mem (Finset.mem_univ i), Finset.card_univ, ← hlast, ← hs.count,
      Nat.add_sub_cancel]
  have heq := Finset.eq_of_subset_of_card_le hsub hcard.le
  exact mem_arrived.mp (heq ▸ Finset.mem_erase.mpr ⟨hj, Finset.mem_univ j⟩)

/-- A participant enters and is not the last. -/
theorem Inv.enter (hs : Inv s) (hstage : s.stage i = .outside)
    (hmore : s.count + 1 ≠ Fintype.card ι) :
    Inv { s with
      count := s.count + 1
      stage := Function.update s.stage i (.waiting s.gen)
      entered := Function.update s.entered i (s.entered i + 1) } := by
  have hfits := hs.fits i
  rw [hstage] at hfits
  obtain ⟨hentered, hleft⟩ := hfits
  refine ⟨fun j => ?_, ?_, fun j => ?_, fun j => ?_⟩ <;> dsimp only
  · rcases eq_or_ne j i with rfl | hne
    · exact .inr (by rw [Function.update_self, hentered])
    · simpa only [Function.update_of_ne hne] using hs.entered j
  · have hnot : i ∉ arrived s := by
      rw [mem_arrived, hentered]
      exact (Nat.succ_ne_self _).symm
    rw [hs.count, ← Finset.card_insert_of_notMem hnot]
    refine congrArg Finset.card (Finset.ext fun j => ?_)
    rw [Finset.mem_insert, mem_arrived, mem_arrived]
    rcases eq_or_ne j i with rfl | hne
    · simp [hentered]
    · simp [hne]
  · have := hs.open_ j
    omega
  · rcases eq_or_ne j i with rfl | hne
    · rw [Function.update_self, Function.update_self]
      exact ⟨rfl, by rw [hentered], hleft⟩
    · simpa only [Function.update_of_ne hne] using hs.fits j

/-- The last participant enters, and the next generation begins. -/
theorem Inv.complete (hs : Inv s) (hstage : s.stage i = .outside)
    (hlast : s.count + 1 = Fintype.card ι) :
    Inv { s with
      gen := s.gen + 1
      count := 0
      stage := Function.update (fun j => (s.stage j).notify) i .released
      entered := Function.update s.entered i (s.entered i + 1) } := by
  have hfits := hs.fits i
  rw [hstage] at hfits
  obtain ⟨hentered, hleft⟩ := hfits
  have hall : ∀ j, Function.update s.entered i (s.entered i + 1) j = s.gen + 1 := by
    intro j
    rcases eq_or_ne j i with rfl | hne
    · rw [Function.update_self, hentered]
    · rw [Function.update_of_ne hne]
      exact hs.last hentered hlast hne
  refine ⟨fun j => .inl (hall j), ?_, fun j => Fintype.card_pos_iff.mpr ⟨j⟩, fun j => ?_⟩
  · rw [eq_comm, Finset.card_eq_zero, Finset.eq_empty_iff_forall_notMem]
    intro j hj
    rw [mem_arrived] at hj
    have := hall j
    dsimp only at hj
    omega
  · dsimp only
    rw [hall j]
    rcases eq_or_ne j i with rfl | hne
    · rw [Function.update_self, hleft]
      exact ⟨rfl, rfl⟩
    · have hj := hs.fits j
      have hentered' := hs.last hentered hlast hne
      rw [Function.update_of_ne hne]
      -- the others have entered this generation, so they wait or are awake
      cases hcase : s.stage j with
      | outside =>
          rw [hcase] at hj
          exact absurd (hj.1.symm.trans hentered') (Nat.succ_ne_self _).symm
      | waiting g =>
          rw [hcase] at hj
          exact ⟨hj.1 ▸ Nat.le_succ _, by rw [hj.1], hj.2.2⟩
      | awake g =>
          rw [hcase] at hj
          exact ⟨Nat.le_succ_of_le hj.1, by rw [← hentered', hj.2.1], hj.2.2⟩
      | released =>
          rw [hcase] at hj
          exact absurd (hj.1.symm.trans hentered') (Nat.succ_ne_self _).symm

/-- A step that moves one participant and counts nobody. -/
theorem Inv.move (hs : Inv s) {stage : Stage} {left : ι → Nat}
    (hfits : stage.Fits s.gen (s.entered i) (left i)) (hleft : ∀ j ≠ i, left j = s.left j) :
    Inv { s with stage := Function.update s.stage i stage, left } := by
  refine ⟨hs.entered, hs.count, hs.open_, fun j => ?_⟩
  dsimp only
  rcases eq_or_ne j i with rfl | hne
  · rwa [Function.update_self]
  · simp only [Function.update_of_ne hne]
    rw [hleft j hne]
    exact hs.fits j

theorem Inv.step {a : Action} (hs : Inv s) (h : step (i, a) s = some s') : Inv s' := by
  have hfits := hs.fits i
  unfold GenerationBarrier.step at h
  dsimp only at h
  cases hstage : s.stage i with
  | outside =>
      rw [hstage] at h
      cases a with
      | enter =>
          dsimp only at h
          split at h
          · next hlast =>
              cases h
              exact hs.complete hstage hlast
          · next hmore =>
              cases h
              exact hs.enter hstage hmore
      | wake => cases h
      | recheck => cases h
      | leave => cases h
  | waiting g =>
      rw [hstage] at h hfits
      cases a with
      | wake =>
          cases h
          exact hs.move ⟨hfits.1.le, hfits.2⟩ fun j _ => rfl
      | enter => cases h
      | recheck => cases h
      | leave => cases h
  | awake g =>
      rw [hstage] at h hfits
      cases a with
      | recheck =>
          cases h
          refine hs.move ?_ fun j _ => rfl
          split
          · next hne =>
              -- the generation has moved on by one, or the count would be off
              have := hs.entered i
              obtain ⟨hle, hentered, hleft⟩ := hfits
              exact ⟨by omega, by omega⟩
          · next heq => exact ⟨(not_not.mp heq).symm, hfits.2⟩
      | enter => cases h
      | wake => cases h
      | leave => cases h
  | released =>
      rw [hstage] at h hfits
      cases a with
      | leave =>
          cases h
          refine hs.move ?_ fun j hj => Function.update_of_ne hj _ _
          rw [Function.update_self]
          exact ⟨hfits.1, hfits.2⟩
      | enter => cases h
      | wake => cases h
      | recheck => cases h

theorem reachable_inv (h : (system ι).Reachable s) : Inv s :=
  h.invariant (fun _ => Inv.init) fun _ _ _ hs hstep => hs.step hstep

omit [DecidableEq ι] in
/-- Nobody leaves more often than anybody has entered. -/
theorem Inv.left_le_entered (hs : Inv s) (i j : ι) : s.left i ≤ s.entered j := by
  have hi := hs.fits i
  have hentered := hs.entered j
  cases hstage : s.stage i <;> rw [hstage] at hi <;> simp only [Stage.Fits] at hi <;> omega

omit [DecidableEq ι] in
/-- When all have entered as often as a participant that waits, its wait is over: it has been
notified, and the generation has changed. -/
theorem Inv.wait_over (hs : Inv s) {gen : Nat}
    (hstage : s.stage i = .waiting gen ∨ s.stage i = .awake gen)
    (hall : ∀ j, s.entered i ≤ s.entered j) : s.gen ≠ gen ∧ s.stage i = .awake gen := by
  have hne : s.gen ≠ gen := by
    rintro rfl
    have hentered : s.entered i = s.gen + 1 := by
      have hfits := hs.fits i
      rcases hstage with hstage | hstage <;> rw [hstage] at hfits <;> exact hfits.2.1
    have harrived : arrived s = Finset.univ := by
      refine Finset.eq_univ_iff_forall.mpr fun j => mem_arrived.mpr ?_
      have := hs.entered j
      have := hall j
      omega
    have hopen := hs.open_ i
    rw [hs.count, harrived, Finset.card_univ] at hopen
    exact absurd hopen (lt_irrefl _)
  refine ⟨hne, hstage.resolve_left fun hwaiting => ?_⟩
  have hfits := hs.fits i
  rw [hwaiting] at hfits
  exact hne hfits.1.symm

end GenerationBarrier
