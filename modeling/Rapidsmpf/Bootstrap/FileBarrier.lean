import Mathlib
import Rapidsmpf.Lib.Transition
import Rapidsmpf.Memory.Buffer

/-!
# The barrier of the file backend

`FileBackend::barrier` in `bootstrap/file_backend.cpp`: a rank creates its file for the barrier,
polls for those of the other ranks in turn, and removes its own. The steps are the accesses to the
shared directory. `left_le_entered` says that nobody leaves early. A rank that removes its file
while another has still to look for it leaves that one behind, which `barrier_releases` excludes
for the runs in which this does not happen.
-/

namespace Rapidsmpf.Bootstrap.File

open Protocol

/-- Where a rank is: outside `barrier`, in the loop over the ranks with `barrier_id` and the loop
variable, or out of it by the exception of a timeout. -/
inductive Control where
  | outside
  | waiting (barrierId : Nat) (r : Rank)
  | threw (barrierId : Nat)
deriving DecidableEq

/-- A rank: `barrier_count_` and its control. -/
structure Node where
  barrierCount : Nat
  control : Control
deriving DecidableEq

/-- The barrier files `barrier_<id>.<rank>` of the shared directory. -/
abbrev Files := Finset (Nat × Rank)

structure State (n : Nat) where
  node : Fin n → Node
  files : Files

inductive Action where
  /-- The barrier file is created. -/
  | enter
  /-- The loop skips the rank itself. -/
  | skip
  /-- `wait_for_file` looks whether the file exists, and sleeps if not. -/
  | poll
  | timeout
  /-- The barrier file is removed. -/
  | leave
deriving DecidableEq

/-- A step of one of `n` ranks. -/
def nodeStep (n : Nat) (rank : Rank) (a : Action) (node : Node) (files : Files) :
    Option (Node × Files) :=
  match a, node.control with
  | .enter, .outside =>
      some (⟨node.barrierCount + 1, .waiting node.barrierCount 0⟩,
        insert (node.barrierCount, rank) files)
  | .skip, .waiting barrierId r =>
      if r = rank then some ({ node with control := .waiting barrierId (r + 1) }, files) else none
  | .poll, .waiting barrierId r =>
      if r < n ∧ r ≠ rank then
        if (barrierId, r) ∈ files then
          some ({ node with control := .waiting barrierId (r + 1) }, files)
        else some (node, files)
      else none
  | .timeout, .waiting barrierId r =>
      if r < n ∧ r ≠ rank ∧ (barrierId, r) ∉ files then
        some ({ node with control := .threw barrierId }, files)
      else none
  | .leave, .waiting barrierId r =>
      if r < n then none
      else some ({ node with control := .outside }, files.erase (barrierId, rank))
  | _, _ => none

variable {n : Nat}

def step (l : Fin n × Action) (s : State n) : Option (State n) :=
  (nodeStep n l.1 l.2 (s.node l.1) s.files).map fun x => ⟨Function.update s.node l.1 x.1, x.2⟩

/-- The barriers of `n` ranks. -/
def system (n : Nat) : System (State n) (Fin n × Action) where
  init s := (∀ i, s.node i = ⟨0, .outside⟩) ∧ s.files = ∅
  step s l s' := step l s = some s'

namespace Node

/-- The number of barriers the rank has returned from. -/
def left (node : Node) : Nat :=
  match node.control with
  | .outside => node.barrierCount
  | .waiting barrierId _ => barrierId
  | .threw barrierId => barrierId

/-- In this barrier the rank has still to look for the file of `rank`. -/
def needs (node : Node) (barrierId : Nat) (rank : Rank) : Bool :=
  match node.control with
  | .waiting k r => k = barrierId && r ≤ rank
  | _ => false

/-- The rank has entered this barrier and not returned from it. -/
def Inside (node : Node) (barrierId : Nat) : Prop :=
  (∃ r, node.control = .waiting barrierId r) ∨ node.control = .threw barrierId

end Node

namespace State

/-- The number of barriers a rank has returned from. -/
def left (s : State n) (i : Fin n) : Nat := (s.node i).left

/-- The number of barriers a rank has entered. -/
def entered (s : State n) (i : Fin n) : Nat := (s.node i).barrierCount

/-- The rank waits for a file that its owner has created and removed. -/
def Stuck (s : State n) (i : Fin n) : Prop :=
  ∃ barrierId, ∃ j : Fin n, (s.node i).control = .waiting barrierId j ∧ j ≠ i ∧
    barrierId < s.entered j ∧ (barrierId, j.val) ∉ s.files

end State

/-- A rank removes its file when no other rank has still to look for it. -/
def Unneeded (s : State n) (l : Fin n × Action) : Prop :=
  l.2 = .leave → ∀ j ≠ l.1, (s.node j).needs (s.left l.1) l.1 = false

instance (s : State n) (l : Fin n × Action) : Decidable (Unneeded s l) :=
  inferInstanceAs (Decidable (_ → _))

/-! ## What a step does -/

/-- The steps of a rank, with their guards. -/
inductive Moves (n : Nat) (rank : Rank) (node : Node) (files : Files) :
    Action → Node → Files → Prop where
  | enter : node.control = .outside →
      Moves n rank node files .enter ⟨node.barrierCount + 1, .waiting node.barrierCount 0⟩
        (insert (node.barrierCount, rank) files)
  | advance {a barrierId r} : node.control = .waiting barrierId r → a ≠ .leave →
      (r = rank ∨ r < n ∧ (barrierId, r) ∈ files) →
      Moves n rank node files a { node with control := .waiting barrierId (r + 1) } files
  | sleep : Moves n rank node files .poll node files
  | timeout {barrierId r} : node.control = .waiting barrierId r →
      Moves n rank node files .timeout { node with control := .threw barrierId } files
  | leave {barrierId r} : node.control = .waiting barrierId r → n ≤ r →
      Moves n rank node files .leave { node with control := .outside }
        (files.erase (barrierId, rank))

theorem node_step_moves {rank : Rank} {a : Action} {node node' : Node} {files files' : Files}
    (h : nodeStep n rank a node files = some (node', files')) :
    Moves n rank node files a node' files' := by
  unfold nodeStep at h
  split at h
  · next hcontrol =>
      cases h
      exact .enter hcontrol
  · next barrierId r hcontrol =>
      split at h
      · next heq =>
          cases h
          exact .advance hcontrol (by simp) (.inl heq)
      · cases h
  · next barrierId r hcontrol =>
      split at h
      · next hlt =>
          split at h
          · next hfile =>
              cases h
              exact .advance hcontrol (by simp) (.inr ⟨hlt.1, hfile⟩)
          · cases h
            exact .sleep
      · cases h
  · next barrierId r hcontrol =>
      split at h
      · cases h
        exact .timeout hcontrol
      · cases h
  · next barrierId r hcontrol =>
      split at h
      · cases h
      · next hle =>
          cases h
          exact .leave hcontrol (Nat.not_lt.mp hle)
  · cases h

theorem step_moves {s s' : State n} {i : Fin n} {a : Action} (h : step (i, a) s = some s') :
    ∃ node, s'.node = Function.update s.node i node ∧
      Moves n i (s.node i) s.files a node s'.files := by
  obtain ⟨⟨node, files⟩, hstep, rfl⟩ := Option.map_eq_some_iff.mp h
  exact ⟨node, rfl, node_step_moves hstep⟩

/-! ## Nobody leaves early -/

/-- What holds of one rank: its file for a barrier is there while it is inside, and the ranks before
its loop variable have entered. -/
structure Orderly (s : State n) (i : Fin n) : Prop where
  count : ∀ barrierId, (s.node i).Inside barrierId → s.entered i = barrierId + 1
  files : ∀ barrierId, (barrierId, i.val) ∈ s.files ↔ (s.node i).Inside barrierId
  passed : ∀ barrierId r, (s.node i).control = .waiting barrierId r →
    ∀ j : Fin n, j.val < r → barrierId < s.entered j

/-- The invariant of all runs. -/
structure Inv (s : State n) : Prop where
  orderly : ∀ i, Orderly s i
  left_le : ∀ i j, s.left i ≤ s.entered j

theorem inside_waiting {node : Node} {barrierId r : Nat} (h : node.control = .waiting barrierId r)
    (k : Nat) : node.Inside k ↔ k = barrierId := by
  unfold Node.Inside
  rw [h]
  constructor
  · rintro (⟨r', heq⟩ | heq)
    · exact (Control.waiting.inj heq).1.symm
    · cases heq
  · rintro rfl
    exact .inl ⟨r, rfl⟩

theorem inside_outside {node : Node} (h : node.control = .outside) (k : Nat) :
    ¬ node.Inside k := by
  unfold Node.Inside
  rw [h]
  rintro (⟨r, heq⟩ | heq) <;> cases heq

theorem inside_threw {node : Node} {barrierId : Nat} (h : node.control = .threw barrierId)
    (k : Nat) : node.Inside k ↔ k = barrierId := by
  unfold Node.Inside
  rw [h]
  constructor
  · rintro (⟨r', heq⟩ | heq)
    · cases heq
    · exact (Control.threw.inj heq).symm
  · rintro rfl
    exact .inr rfl

/-- What a rank is inside of it has not returned from. -/
theorem left_of_inside {node : Node} {k : Nat} (h : node.Inside k) : node.left = k := by
  unfold Node.left
  rcases h with ⟨r, h⟩ | h <;> rw [h]

/-- The steps of a rank: how often it has entered and left, its file, and who it has seen. -/
theorem moves_effect {rank : Rank} {node node' : Node} {files files' : Files} {a : Action}
    (h : Moves n rank node files a node' files')
    (hcount : ∀ k, node.Inside k → node.barrierCount = k + 1)
    (hfiles : ∀ k, (k, rank) ∈ files ↔ node.Inside k) :
    node.barrierCount ≤ node'.barrierCount ∧
      (∀ k, node'.Inside k → node'.barrierCount = k + 1) ∧
      (∀ k, (k, rank) ∈ files' ↔ node'.Inside k) ∧
      ∀ k other, other ≠ rank → ((k, other) ∈ files' ↔ (k, other) ∈ files) := by
  cases h with
  | enter hcontrol =>
      refine ⟨Nat.le_succ _, fun k hk => ?_, fun k => ?_, fun k other hne => ?_⟩
      · rw [inside_waiting rfl] at hk
        rw [hk]
      · rw [inside_waiting rfl, Finset.mem_insert, hfiles, Prod.mk.injEq]
        simp [inside_outside hcontrol]
      · simp [hne]
  | @advance a barrierId r hcontrol hleave hpassed =>
      refine ⟨le_rfl, fun k hk => ?_, fun k => ?_, fun k other hne => Iff.rfl⟩
      · rw [inside_waiting rfl] at hk
        exact hcount k ((inside_waiting hcontrol k).mpr hk)
      · rw [inside_waiting rfl, hfiles, inside_waiting hcontrol]
  | sleep => exact ⟨le_rfl, hcount, hfiles, fun k other hne => Iff.rfl⟩
  | @timeout barrierId r hcontrol =>
      refine ⟨le_rfl, fun k hk => ?_, fun k => ?_, fun k other hne => Iff.rfl⟩
      · rw [inside_threw rfl] at hk
        exact hcount k ((inside_waiting hcontrol k).mpr hk)
      · rw [inside_threw rfl, hfiles, inside_waiting hcontrol]
  | @leave barrierId r hcontrol hle =>
      refine ⟨le_rfl, fun k hk => absurd hk (inside_outside rfl k), fun k => ?_,
        fun k other hne => ?_⟩
      · rw [Finset.mem_erase, hfiles, inside_waiting hcontrol]
        have hnot : ¬ { node with control := .outside }.Inside k := inside_outside rfl k
        simp [hnot]
      · rw [Finset.mem_erase]
        exact and_iff_right fun h => hne (Prod.mk.inj h).2

/-- How often a rank has left, after a step of it. -/
theorem moves_left {rank : Rank} {node node' : Node} {files files' : Files} {a : Action}
    (h : Moves n rank node files a node' files')
    (hcount : ∀ k, node.Inside k → node.barrierCount = k + 1) :
    node'.left = node.left ∨
      a = .leave ∧ ∃ k r, node.control = .waiting k r ∧ n ≤ r ∧ node'.left = k + 1 := by
  cases h with
  | enter hcontrol => exact .inl (by simp [Node.left, hcontrol])
  | advance hcontrol _ _ => exact .inl (by simp [Node.left, hcontrol])
  | sleep => exact .inl rfl
  | timeout hcontrol => exact .inl (by simp [Node.left, hcontrol])
  | @leave k r hcontrol hle =>
      exact .inr ⟨rfl, k, r, hcontrol, hle, hcount k ((inside_waiting hcontrol k).mpr rfl)⟩

/-- The barrier and the loop variable after a step of a rank that then waits. -/
theorem moves_waiting {rank : Rank} {node node' : Node} {files files' : Files} {a : Action}
    {k r : Nat} (h : Moves n rank node files a node' files')
    (hwaits : node'.control = .waiting k r) :
    node.control = .outside ∧ k = node.barrierCount ∧ r = 0 ∨
      node.control = .waiting k r ∨
      ∃ r₀, node.control = .waiting k r₀ ∧ r = r₀ + 1 ∧ (r₀ = rank ∨ r₀ < n ∧ (k, r₀) ∈ files) := by
  cases h with
  | enter hcontrol =>
      obtain ⟨rfl, rfl⟩ := Control.waiting.inj hwaits
      exact .inl ⟨hcontrol, rfl, rfl⟩
  | @advance a k₀ r₀ hcontrol _ hpassed =>
      obtain ⟨rfl, rfl⟩ := Control.waiting.inj hwaits
      exact .inr (.inr ⟨r₀, hcontrol, rfl, hpassed⟩)
  | sleep => exact .inr (.inl hwaits)
  | timeout hcontrol => cases hwaits
  | leave hcontrol hle => cases hwaits

theorem entered_le {s s' : State n} {i : Fin n} {node : Node}
    (hnode : s'.node = Function.update s.node i node)
    (hle : (s.node i).barrierCount ≤ node.barrierCount) (j : Fin n) :
    s.entered j ≤ s'.entered j := by
  show (s.node j).barrierCount ≤ (s'.node j).barrierCount
  rw [hnode]
  rcases eq_or_ne j i with rfl | hne
  · rwa [Function.update_self]
  · rw [Function.update_of_ne hne]

theorem Inv.step {s s' : State n} {i : Fin n} {a : Action} (hs : Inv s)
    (h : step (i, a) s = some s') : Inv s' := by
  obtain ⟨node, hnode, hmoves⟩ := step_moves h
  obtain ⟨hcount, hfiles, hpassed⟩ := hs.orderly i
  obtain ⟨hmono, hcount', hfiles', hothers⟩ := moves_effect hmoves hcount hfiles
  have hentered := entered_le hnode hmono
  have hself : s'.node i = node := by rw [hnode, Function.update_self]
  have hother : ∀ k ≠ i, s'.node k = s.node k := fun k hk => by
    rw [hnode, Function.update_of_ne hk]
  constructor
  · intro k
    rcases eq_or_ne k i with rfl | hne
    · refine ⟨fun b hb => ?_, fun b => ?_, fun b r hwaits j hj => ?_⟩
      · rw [hself] at hb
        show (s'.node k).barrierCount = b + 1
        rw [hself]
        exact hcount' b hb
      · rw [hself]
        exact hfiles' b
      · rw [hself] at hwaits
        refine lt_of_lt_of_le ?_ (hentered j)
        rcases moves_waiting hmoves hwaits with ⟨-, -, rfl⟩ | hold | ⟨r₀, hold, rfl, hseen⟩
        · exact absurd hj (Nat.not_lt_zero _)
        · exact hpassed b r hold j hj
        · rcases Nat.lt_succ_iff_lt_or_eq.mp hj with hlt | heq
          · exact hpassed b r₀ hold j hlt
          · -- the rank itself, or one whose file was there
            have hinside : (s.node j).Inside b := by
              rcases hseen with hrank | ⟨-, hfile⟩
              · obtain rfl : j = k := Fin.ext (heq.trans hrank)
                exact (inside_waiting hold b).mpr rfl
              · exact ((hs.orderly j).files b).mp (heq ▸ hfile)
            rw [(hs.orderly j).count b hinside]
            exact Nat.lt_succ_self b
    · obtain ⟨hkcount, hkfiles, hkpassed⟩ := hs.orderly k
      refine ⟨fun b hb => ?_, fun b => ?_, fun b r hwaits j hj => ?_⟩
      · rw [hother k hne] at hb
        show (s'.node k).barrierCount = b + 1
        rw [hother k hne]
        exact hkcount b hb
      · rw [hother k hne, hothers b k (fun h => hne (Fin.ext h))]
        exact hkfiles b
      · rw [hother k hne] at hwaits
        exact lt_of_lt_of_le (hkpassed b r hwaits j hj) (hentered j)
  · intro k j
    refine le_trans ?_ (hentered j)
    show (s'.node k).left ≤ s.entered j
    rcases eq_or_ne k i with rfl | hne
    · rw [hself]
      rcases moves_left hmoves hcount with hleft | ⟨-, b, r, hwaits, hle, hleft⟩
      · rw [hleft]
        exact hs.left_le k j
      · rw [hleft]
        exact hpassed b r hwaits j (lt_of_lt_of_le j.isLt hle)
    · rw [hother k hne]
      exact hs.left_le k j

theorem Inv.init {s : State n} (h : (system n).init s) : Inv s := by
  obtain ⟨hnode, hfiles⟩ := h
  have hcontrol : ∀ i, (s.node i).control = .outside := fun i => by rw [hnode i]
  constructor
  · intro i
    refine ⟨fun b hb => absurd hb (inside_outside (hcontrol i) b), fun b => ?_, fun b r hr => ?_⟩
    · simp [hfiles, inside_outside (hcontrol i)]
    · rw [hcontrol i] at hr
      cases hr
  · intro i j
    simp [State.left, State.entered, Node.left, hnode]

theorem reachable_inv {s : State n} (h : (system n).Reachable s) : Inv s :=
  h.invariant (fun _ => Inv.init) fun _ _ _ hs hstep => hs.step hstep

/-! ## Nobody waits for a removed file -/

/-- No rank has yet to look for the file of a rank that has left the barrier. -/
def Ahead (s : State n) : Prop :=
  ∀ i j : Fin n, i ≠ j → ∀ barrierId r, (s.node i).control = .waiting barrierId r → r ≤ j.val →
    s.left j ≤ barrierId

theorem Ahead.step {s s' : State n} {i : Fin n} {a : Action} (hs : Ahead s) (hinv : Inv s)
    (hok : Unneeded s (i, a)) (h : File.step (i, a) s = some s') : Ahead s' := by
  obtain ⟨node, hnode, hmoves⟩ := step_moves h
  have hself : s'.node i = node := by rw [hnode, Function.update_self]
  have hother : ∀ k ≠ i, s'.node k = s.node k := fun k hk => by
    rw [hnode, Function.update_of_ne hk]
  intro k j hkj b r hwaits hr
  show (s'.node j).left ≤ b
  rcases eq_or_ne k i with rfl | hk
  · rw [hother j hkj.symm]
    rw [hself] at hwaits
    rcases moves_waiting hmoves hwaits with ⟨hout, rfl, -⟩ | hold | ⟨r₀, hold, rfl, -⟩
    · exact hinv.left_le j k
    · exact hs k j hkj b r hold hr
    · exact hs k j hkj b r₀ hold (Nat.le_of_succ_le hr)
  · rw [hother k hk] at hwaits
    have hold := hs k j hkj b r hwaits hr
    rcases eq_or_ne j i with rfl | hj
    · rw [hself]
      rcases moves_left hmoves (hinv.orderly j).count with hleft | ⟨rfl, b', r', hwaits', -, hleft⟩
      · rw [hleft]
        exact hold
      · rw [hleft]
        have hb' : s.left j = b' :=
          left_of_inside ((inside_waiting hwaits' b').mpr rfl)
        rw [hb'] at hold
        rcases Nat.lt_or_eq_of_le hold with hlt | rfl
        · exact hlt
        · have hneeds := hok rfl k hk
          simp [Node.needs, hwaits, hb', hr] at hneeds
    · rw [hother j hj]
      exact hold

theorem reach_ahead {s : State n} (h : (system n).Reach Unneeded s) : Ahead s := by
  have hboth : Inv s ∧ Ahead s := by
    refine h.invariant (I := fun s => Inv s ∧ Ahead s) (fun s hinit => ⟨Inv.init hinit, ?_⟩)
      fun s l s' hs hok hstep => ⟨hs.1.step hstep, hs.2.step hs.1 hok hstep⟩
    intro i j _ b r hr
    rw [hinit.1 i] at hr
    cases hr
  exact hboth.2

/-- A file that was created and is not there was removed: its owner has left the barrier. -/
theorem Inv.left_of_removed {s : State n} (hs : Inv s) {j : Fin n} {barrierId : Nat}
    (hcreated : barrierId < s.entered j) (hgone : (barrierId, j.val) ∉ s.files) :
    barrierId < s.left j := by
  have hnot : ¬ (s.node j).Inside barrierId := fun h => hgone (((hs.orderly j).files _).mpr h)
  cases hcontrol : (s.node j).control with
  | outside => simpa [State.left, State.entered, Node.left, hcontrol] using hcreated
  | waiting b r =>
      have hinside : (s.node j).Inside b := .inl ⟨r, hcontrol⟩
      rw [(hs.orderly j).count b hinside] at hcreated
      rw [show s.left j = b from left_of_inside hinside]
      exact lt_of_le_of_ne (Nat.lt_succ_iff.mp hcreated) fun h => hnot (h ▸ hinside)
  | threw b =>
      have hinside : (s.node j).Inside b := .inr hcontrol
      rw [(hs.orderly j).count b hinside] at hcreated
      rw [show s.left j = b from left_of_inside hinside]
      exact lt_of_le_of_ne (Nat.lt_succ_iff.mp hcreated) fun h => hnot (h ▸ hinside)

/-- Nobody returns from a barrier that some rank has not entered. In the runs in which a rank
removes its file only when no other rank has still to look for it, nobody waits for a file that was
removed. -/
theorem barrier_releases (n : Nat) :
    (∀ s : State n, (system n).Reachable s → ∀ i j, s.left i ≤ s.entered j) ∧
    ∀ s : State n, (system n).Reach Unneeded s → ∀ i, ¬ s.Stuck i := by
  refine ⟨fun s hs => (reachable_inv hs).left_le, fun s hs i hstuck => ?_⟩
  obtain ⟨barrierId, j, hwaits, hne, hcreated, hgone⟩ := hstuck
  have hinv := reachable_inv (hs.mono fun _ _ _ => trivial)
  have hleft := hinv.left_of_removed hcreated hgone
  have hahead := reach_ahead hs i j hne.symm barrierId j hwaits le_rfl
  omega

/-- Two ranks outside of any barrier. -/
def twoRanks : State 2 := ⟨fun _ => ⟨0, .outside⟩, ∅⟩

theorem two_ranks_init : (system 2).init twoRanks := ⟨fun _ => rfl, rfl⟩

/-- Both ranks enter, and rank 1 finds the file of rank 0. -/
def meet : List (Fin 2 × Action) := [(0, .enter), (1, .enter), (1, .poll), (1, .skip), (0, .skip)]

/-- Rank 0 finds the file of rank 1 before that is removed. -/
theorem barrier_releases_two :
    ∃ s : State 2, (system 2).Reach Unneeded s ∧ s.left 0 = 1 ∧ s.left 1 = 1 ∧
      ∀ i, ¬ s.Stuck i := by
  have hrun : ∃ s, (meet ++ ([(0, .poll), (0, .leave), (1, .leave)] : List (_ × Action))).foldlM
      (fun s l => if Unneeded s l then step l s else none) twoRanks = some s ∧
      s.left 0 = 1 ∧ s.left 1 = 1 := ⟨_, rfl, rfl, rfl⟩
  obtain ⟨s, hrun, hleft⟩ := hrun
  have hreach : (system 2).Reach Unneeded s := by
    refine (System.Reach.init two_ranks_init).exec
      (f := fun l s => if Unneeded s l then step l s else none) (fun l _ s₁ s₂ h => ?_) hrun
    exact Option.ite_none_right_eq_some.mp h
  exact ⟨s, hreach, hleft.1, hleft.2, (barrier_releases 2).2 s hreach⟩

/-- Rank 1 removes its file before rank 0 has looked for it. -/
theorem removed_file_awaited : ∃ s : State 2, (system 2).Reachable s ∧ s.Stuck 0 := by
  have hrun : ∃ s, (meet ++ [(1, Action.leave)]).foldlM (fun s l => step l s) twoRanks = some s ∧
      s.node 0 = ⟨1, .waiting 0 1⟩ ∧ (s.node 1).barrierCount = 1 ∧ s.files = {(0, 0)} :=
    ⟨_, rfl, rfl, rfl, rfl⟩
  obtain ⟨s, hrun, hwaits, hcount, hfiles⟩ := hrun
  have hreach : (system 2).Reachable s :=
    (System.Reach.init two_ranks_init).exec (fun l _ s₁ s₂ h => ⟨trivial, h⟩) hrun
  refine ⟨s, hreach, ?_⟩
  refine ⟨0, 1, by rw [hwaits]; rfl, by decide, ?_, by simp [hfiles]⟩
  rw [State.entered, hcount]
  exact Nat.one_pos

end Rapidsmpf.Bootstrap.File
