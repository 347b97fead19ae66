import Mathlib
import Rapidsmpf.Bootstrap.FileBarrier

/-!
# The lifetimes of the file backend

A rank constructs its `FileBackend`, which creates the shared directories and the alive file of the
rank, uses it for any number of `put`, `get` and `barrier`, and destroys it, which removes the alive
file. Rank 0 then looks for the alive files of the others, from the first rank again whenever it
finds one, and when it has found none it removes the directory. `removes_last`: by then all others
are destroyed, in the runs in which no alive file is looked for before its rank is constructed.

The timeout of the clean-up does not expire here. A key that `validate_key` refuses, a `put` of
another rank than 0 and a write into a removed directory throw and change nothing.
-/

namespace Rapidsmpf.Bootstrap.Cleanup

open Protocol

/-- Where a rank is. -/
inductive Lifetime where
  | absent
  /-- The directories are created, the alive file is not. -/
  | creating
  | constructed
  /-- In `cleanup_coordination_directory`, about to look for the alive file of `r`. -/
  | sweeping (r : Rank)
  /-- `all_ranks_done`. -/
  | removing
  | destroyed
deriving DecidableEq

/-- The ranks and the shared directory: whether it exists, the alive files, the files of the keys,
and, with the ranks' parts in them, the barriers. -/
structure State (n : Nat) where
  lifetime : Fin n → Lifetime
  directory : Bool
  alive : Finset Rank
  kv : Bytes → Option Bytes
  barrier : File.State n

inductive Action where
  | createDirectories
  | writeAlive
  | put (key value : Bytes)
  | get (key : Bytes)
  | barrier (a : File.Action)
  | removeAlive
  | check
  | removeAll
deriving DecidableEq

variable {n : Nat}

/-- `exists` for the alive files, one after the other. -/
def checkAlive (n : Nat) (rank : Rank) (alive : Finset Rank) (r : Rank) : Lifetime :=
  if r < n then
    if r = rank then .sweeping (r + 1)
    else if r ∈ alive then .sweeping 0
    else .sweeping (r + 1)
  else .removing

/-- The rank is not in `barrier`. -/
def atRest (node : File.Node) : Bool :=
  match node.control with
  | .waiting _ _ => false
  | _ => true

/-- A step of a rank. -/
def rankStep (i : Fin n) (a : Action) (s : State n) : Option (State n) :=
  let become (lifetime : Lifetime) := Function.update s.lifetime i lifetime
  match a, s.lifetime i with
  | .createDirectories, .absent =>
      some { s with lifetime := become .creating, directory := true }
  | .writeAlive, .creating =>
      if s.directory then
        some { s with lifetime := become .constructed, alive := insert i.val s.alive }
      else none
  | .put key value, .constructed =>
      if s.directory ∧ i.val = 0 then
        some { s with kv := Function.update s.kv key (some value) }
      else none
  | .get key, .constructed => if (s.kv key).isSome then some s else none
  | .barrier a, .constructed =>
      if s.directory ∨ a ≠ .enter then
        (File.step (i, a) s.barrier).map fun barrier => { s with barrier }
      else none
  | .removeAlive, .constructed =>
      if atRest (s.barrier.node i) then
        some { s with
          lifetime := become (if i.val = 0 then .sweeping 0 else .destroyed)
          alive := s.alive.erase i.val }
      else none
  | .check, .sweeping r => some { s with lifetime := become (checkAlive n i s.alive r) }
  | .removeAll, .removing =>
      some {
        lifetime := become .destroyed
        directory := false
        alive := ∅
        kv := fun _ => none
        barrier := { s.barrier with files := ∅ } }
  | _, _ => none

def step (l : Fin n × Action) (s : State n) : Option (State n) := rankStep l.1 l.2 s

/-- The lifetimes of `n` ranks. -/
def system (n : Nat) : System (State n) (Fin n × Action) where
  init s := (∀ i, s.lifetime i = .absent) ∧ s.directory = false ∧ s.alive = ∅ ∧
    (∀ key, s.kv key = none) ∧ (File.system n).init s.barrier
  step s l s' := step l s = some s'

/-- The backend of the rank has been constructed. -/
def Lifetime.started : Lifetime → Bool
  | .absent | .creating => false
  | _ => true

/-- Rank 0 looks for the alive file of a rank that has been constructed. -/
def Started (s : State n) (l : Fin n × Action) : Prop :=
  l.2 = .check → ∀ j : Fin n, s.lifetime l.1 = .sweeping j → (s.lifetime j).started = true

instance (s : State n) (l : Fin n × Action) : Decidable (Started s l) :=
  inferInstanceAs (Decidable (_ → _))

/-! ## What a step does -/

/-- What a step makes of the lifetime of its rank and of the alive files. -/
inductive Moves (n : Nat) (rank : Rank) (alive : Finset Rank) :
    Action → Lifetime → Lifetime → Finset Rank → Prop where
  | create : Moves n rank alive .createDirectories .absent .creating alive
  | construct : Moves n rank alive .writeAlive .creating .constructed (insert rank alive)
  | use {a : Action} : a ≠ .removeAll → Moves n rank alive a .constructed .constructed alive
  | destroy : rank ≠ 0 →
      Moves n rank alive .removeAlive .constructed .destroyed (alive.erase rank)
  | sweep : rank = 0 →
      Moves n rank alive .removeAlive .constructed (.sweeping 0) (alive.erase rank)
  | check {r : Rank} {lifetime : Lifetime} : checkAlive n rank alive r = lifetime →
      Moves n rank alive .check (.sweeping r) lifetime alive
  | removeAll : Moves n rank alive .removeAll .removing .destroyed ∅

theorem step_moves {s s' : State n} {i : Fin n} {a : Action} (h : step (i, a) s = some s') :
    ∃ lifetime, s'.lifetime = Function.update s.lifetime i lifetime ∧
      Moves n i s.alive a (s.lifetime i) lifetime s'.alive := by
  have hsame : Function.update s.lifetime i (s.lifetime i) = s.lifetime :=
    Function.update_eq_self i s.lifetime
  replace h : rankStep i a s = some s' := h
  unfold rankStep at h
  split at h
  · next hlife =>
      cases h
      exact ⟨_, rfl, hlife ▸ .create⟩
  · next hlife =>
      split at h
      · cases h
        exact ⟨_, rfl, hlife ▸ .construct⟩
      · cases h
  · next key value hlife =>
      split at h
      · cases h
        exact ⟨_, hsame.symm, hlife ▸ .use (fun h => by cases h)⟩
      · cases h
  · next key hlife =>
      split at h
      · cases h
        exact ⟨_, hsame.symm, hlife ▸ .use (fun h => by cases h)⟩
      · cases h
  · next b hlife =>
      split at h
      · obtain ⟨barrier, -, rfl⟩ := Option.map_eq_some_iff.mp h
        exact ⟨_, hsame.symm, hlife ▸ .use (fun h => by cases h)⟩
      · cases h
  · next hlife =>
      split at h
      · cases h
        refine ⟨_, rfl, ?_⟩
        rw [hlife]
        split
        · next hzero => exact .sweep hzero
        · next hne => exact .destroy hne
      · cases h
  · next r hlife =>
      cases h
      exact ⟨_, rfl, hlife ▸ .check rfl⟩
  · next hlife =>
      cases h
      exact ⟨_, rfl, hlife ▸ .removeAll⟩
  · cases h

/-! ## Rank 0 is the last -/

/-- A constructed rank has its alive file, and the ranks rank 0 has done with are destroyed. -/
structure Inv (s : State n) : Prop where
  alive : ∀ j, s.lifetime j = .constructed → j.val ∈ s.alive
  swept : ∀ i r, s.lifetime i = .sweeping r →
    i.val = 0 ∧ ∀ j : Fin n, j ≠ i → j.val < r → s.lifetime j = .destroyed
  last : ∀ i, s.lifetime i = .removing → i.val = 0 ∧ ∀ j ≠ i, s.lifetime j = .destroyed

theorem Inv.init {s : State n} (h : (system n).init s) : Inv s := by
  have habsent := h.1
  refine ⟨fun j hj => ?_, fun i r hi => ?_, fun i hi => ?_⟩
  · rw [habsent j] at hj
    cases hj
  · rw [habsent i] at hi
    cases hi
  · rw [habsent i] at hi
    cases hi

theorem check_alive_cases (n : Nat) (rank : Rank) (alive : Finset Rank) (r : Rank) :
    checkAlive n rank alive r = .removing ∨ ∃ r', checkAlive n rank alive r = .sweeping r' := by
  unfold checkAlive
  split_ifs
  · exact .inr ⟨_, rfl⟩
  · exact .inr ⟨_, rfl⟩
  · exact .inr ⟨_, rfl⟩
  · exact .inl rfl

section Moves

variable {rank : Rank} {alive alive' : Finset Rank} {a : Action} {lifetime lifetime' : Lifetime}

/-- A destroyed rank makes no step, so it stays destroyed. -/
theorem Moves.not_destroyed (h : Moves n rank alive a lifetime lifetime' alive') :
    lifetime ≠ .destroyed := by
  cases h <;> simp

theorem Moves.constructed (h : Moves n rank alive a lifetime .constructed alive')
    (hold : lifetime = .constructed → rank ∈ alive) : rank ∈ alive' := by
  cases h with
  | construct => exact Finset.mem_insert_self _ _
  | use => exact hold rfl
  | @check r lifetime heq =>
      rcases check_alive_cases n rank alive r with h | ⟨r', h⟩ <;> cases h.symm.trans heq

/-- Only `remove_all` removes the alive file of another rank. -/
theorem Moves.others (h : Moves n rank alive a lifetime lifetime' alive')
    (hremoving : lifetime ≠ .removing) {other : Rank} (hne : other ≠ rank) (hmem : other ∈ alive) :
    other ∈ alive' := by
  cases h with
  | create => exact hmem
  | construct => exact Finset.mem_insert_of_mem hmem
  | use => exact hmem
  | destroy => exact Finset.mem_erase.mpr ⟨hne, hmem⟩
  | sweep => exact Finset.mem_erase.mpr ⟨hne, hmem⟩
  | check => exact hmem
  | removeAll => exact absurd rfl hremoving

theorem Moves.sweeping {r : Rank} (h : Moves n rank alive a lifetime (.sweeping r) alive') :
    rank = 0 ∧ r = 0 ∨
      ∃ r₀, a = .check ∧ lifetime = .sweeping r₀ ∧ checkAlive n rank alive r₀ = .sweeping r := by
  cases h with
  | sweep hzero => exact .inl ⟨hzero, rfl⟩
  | check heq => exact .inr ⟨_, rfl, rfl, heq⟩

theorem Moves.removing (h : Moves n rank alive a lifetime .removing alive') :
    ∃ r₀, a = .check ∧ lifetime = .sweeping r₀ ∧ checkAlive n rank alive r₀ = .removing := by
  cases h with
  | check heq => exact ⟨_, rfl, rfl, heq⟩

end Moves

/-- Only rank 0 sweeps, and what it is about to do is right when `checkAlive` says so. -/
theorem check_swept {s : State n} {i : Fin n} {r : Rank} (hs : Inv s) (hok : Started s (i, .check))
    (hsweeping : s.lifetime i = .sweeping r) :
    (∀ r', checkAlive n i s.alive r = .sweeping r' →
      ∀ j : Fin n, j ≠ i → j.val < r' → s.lifetime j = .destroyed) ∧
    (checkAlive n i s.alive r = .removing → ∀ j ≠ i, s.lifetime j = .destroyed) := by
  obtain ⟨hzero, hbefore⟩ := hs.swept i r hsweeping
  unfold checkAlive
  by_cases hlt : r < n
  · rw [if_pos hlt]
    constructor
    · intro r' hr' j hji hj
      split_ifs at hr' with hself hfile
      · obtain rfl := Lifetime.sweeping.inj hr'
        rcases Nat.lt_succ_iff_lt_or_eq.mp hj with hjr | heq
        · exact hbefore j hji hjr
        · exact absurd (Fin.ext (heq.trans hself)) hji
      · obtain rfl := Lifetime.sweeping.inj hr'
        exact absurd hj (Nat.not_lt_zero _)
      · obtain rfl := Lifetime.sweeping.inj hr'
        rcases Nat.lt_succ_iff_lt_or_eq.mp hj with hjr | rfl
        · exact hbefore j hji hjr
        · -- its alive file is gone although it has been constructed
          have hstarted := hok rfl j hsweeping
          cases hlife : s.lifetime j with
          | absent => simp [hlife, Lifetime.started] at hstarted
          | creating => simp [hlife, Lifetime.started] at hstarted
          | constructed => exact absurd (hs.alive j hlife) hfile
          | sweeping r => exact absurd (Fin.ext ((hs.swept j r hlife).1.trans hzero.symm)) hji
          | removing => exact absurd (Fin.ext ((hs.last j hlife).1.trans hzero.symm)) hji
          | destroyed => rfl
    · intro hremoving
      split_ifs at hremoving
  · rw [if_neg hlt]
    refine ⟨fun r' hr' => (by cases hr'), fun _ j hji => ?_⟩
    exact hbefore j hji (lt_of_lt_of_le j.isLt (Nat.not_lt.mp hlt))

theorem Inv.step {s s' : State n} {i : Fin n} {a : Action} (hs : Inv s) (hok : Started s (i, a))
    (h : Cleanup.step (i, a) s = some s') : Inv s' := by
  obtain ⟨lifetime, hlifetime, hmoves⟩ := step_moves h
  have hself : s'.lifetime i = lifetime := by rw [hlifetime, Function.update_self]
  have hother : ∀ k ≠ i, s'.lifetime k = s.lifetime k := fun k hk => by
    rw [hlifetime, Function.update_of_ne hk]
  have hdestroyed : ∀ k, s.lifetime k = .destroyed → s'.lifetime k = .destroyed := by
    intro k hk
    rw [hother k fun hki => hmoves.not_destroyed (hki ▸ hk), hk]
  refine ⟨fun k hk => ?_, fun k r hr => ?_, fun k hr => ?_⟩
  · rcases eq_or_ne k i with rfl | hne
    · rw [hself] at hk
      subst hk
      exact hmoves.constructed (hs.alive k)
    · rw [hother k hne] at hk
      refine hmoves.others (fun hremoving => ?_) (fun h => hne (Fin.ext h)) (hs.alive k hk)
      have hgone := (hs.last i hremoving).2 k hne
      rw [hgone] at hk
      cases hk
  · rcases eq_or_ne k i with rfl | hne
    · rw [hself] at hr
      subst hr
      rcases hmoves.sweeping with ⟨hzero, rfl⟩ | ⟨r₀, rfl, hold, hcheck⟩
      · exact ⟨hzero, fun j _ hj => absurd hj (Nat.not_lt_zero _)⟩
      · exact ⟨(hs.swept k r₀ hold).1, fun j hjk hj =>
          hdestroyed j ((check_swept hs hok hold).1 r hcheck j hjk hj)⟩
    · rw [hother k hne] at hr
      obtain ⟨hzero, hbefore⟩ := hs.swept k r hr
      exact ⟨hzero, fun j hjk hj => hdestroyed j (hbefore j hjk hj)⟩
  · rcases eq_or_ne k i with rfl | hne
    · rw [hself] at hr
      subst hr
      obtain ⟨r₀, rfl, hold, hcheck⟩ := hmoves.removing
      exact ⟨(hs.swept k r₀ hold).1, fun j hjk =>
        hdestroyed j ((check_swept hs hok hold).2 hcheck j hjk)⟩
    · rw [hother k hne] at hr
      obtain ⟨hzero, hall⟩ := hs.last k hr
      exact ⟨hzero, fun j hjk => hdestroyed j (hall j hjk)⟩

/-- In the runs in which rank 0 looks for the alive file of a rank only after that rank has been
constructed, `remove_all` is called when all other ranks have been destroyed. -/
theorem removes_last {s s' : State n} {i : Fin n} (hs : (system n).Reach Started s)
    (h : step (i, .removeAll) s = some s') :
    i.val = 0 ∧ ∀ j ≠ i, s.lifetime j = .destroyed := by
  have hinv : Inv s := hs.invariant (fun _ => Inv.init) fun _ _ _ hs hok hstep => hs.step hok hstep
  obtain ⟨lifetime, -, hmoves⟩ := step_moves h
  refine hinv.last i ?_
  generalize s.lifetime i = old at hmoves ⊢
  generalize s'.alive = alive at hmoves
  cases hmoves with
  | use hne => exact absurd rfl hne
  | removeAll => rfl

/-- Two ranks, not yet constructed. -/
def twoRanks : State 2 :=
  ⟨fun _ => .absent, false, ∅, fun _ => none, File.twoRanks⟩

theorem two_ranks_init : (system 2).init twoRanks :=
  ⟨fun _ => rfl, rfl, rfl, fun _ => rfl, File.two_ranks_init⟩

/-- A rank constructs its backend. -/
def construct (i : Fin 2) : List (Fin 2 × Action) := [(i, .createDirectories), (i, .writeAlive)]

/-- A rank removes its alive file and finds no other one. -/
def cleanUp (i : Fin 2) : List (Fin 2 × Action) :=
  [(i, .removeAlive), (i, .check), (i, .check), (i, .check)]

/-- Rank 1 is constructed and destroyed before rank 0 looks for its alive file. -/
theorem removes_last_two :
    ∃ s s' : State 2, (system 2).Reach Started s ∧ step (0, .removeAll) s = some s' ∧
      ∀ j ≠ (0 : Fin 2), s.lifetime j = .destroyed := by
  have hrun : ∃ s s', (construct 0 ++ construct 1 ++ [(1, Action.removeAlive)] ++ cleanUp 0).foldlM
      (fun s l => if Started s l then step l s else none) twoRanks = some s ∧
      step (0, .removeAll) s = some s' := ⟨_, _, rfl, rfl⟩
  obtain ⟨s, s', hrun, hstep⟩ := hrun
  have hreach : (system 2).Reach Started s := by
    refine (System.Reach.init two_ranks_init).exec
      (f := fun l s => if Started s l then step l s else none) (fun l _ s₁ s₂ h => ?_) hrun
    exact Option.ite_none_right_eq_some.mp h
  exact ⟨s, s', hreach, hstep, (removes_last hreach hstep).2⟩

/-- Rank 0 is destroyed before rank 1 is constructed. -/
theorem removes_before_start :
    ∃ s s' : State 2, (system 2).Reachable s ∧ step (0, .removeAll) s = some s' ∧
      s.lifetime 1 = .absent := by
  have hrun : ∃ s s', (construct 0 ++ cleanUp 0).foldlM (fun s l => step l s) twoRanks = some s ∧
      step (0, .removeAll) s = some s' ∧ s.lifetime 1 = .absent := ⟨_, _, rfl, rfl, rfl⟩
  obtain ⟨s, s', hrun, hstep, habsent⟩ := hrun
  have hreach : (system 2).Reachable s :=
    (System.Reach.init two_ranks_init).exec (fun l _ s₁ s₂ h => ⟨trivial, h⟩) hrun
  exact ⟨s, s', hreach, hstep, habsent⟩

end Rapidsmpf.Bootstrap.Cleanup
