import Rapidsmpf.Streaming.Channel
import Rapidsmpf.Streaming.SpillableMessages
import Rapidsmpf.Streaming.UnboundedFanout

/-!
# What the users of the store see

A channel and the unbounded fanout use the store of their context as a map: they insert a message
under a new id and remove an id that they have. `MessageStore` is this map with its steps. The
store of spillable messages is one, whatever its threads do (`Spillable.view_reachable`): spills
and copies change nothing in it, and under an id is the content that was inserted, unless a
throwing callback has lost it (`Spillable.view_content`). A channel and the fanout change their
store by steps of the map only, so it stays one in all their runs (`Channel.store_reachable`,
`Unbounded.store_reachable`), and what they insert overwrites nothing.
-/

namespace Rapidsmpf.Streaming

open Protocol

universe u v

/-- The next id, and the messages under the ids in use. -/
structure MessageStore (μ : Type u) where
  counter : Nat
  messages : Nat → Option μ

namespace MessageStore

variable {μ : Type u}

inductive Label (μ : Type u) where
  | insert (m : μ)
  | remove (id : Nat)
  | clear

/-- One step. What is removed must be there. -/
def step (l : Label μ) (s : MessageStore μ) : Option (MessageStore μ) :=
  match l with
  | .insert m => some ⟨s.counter + 1, Function.update s.messages s.counter (some m)⟩
  | .remove id =>
      if (s.messages id).isSome then some { s with messages := Function.update s.messages id none }
      else none
  | .clear => some { s with messages := fun _ => none }

def system : System (MessageStore μ) (Label μ) where
  init s := s = ⟨0, fun _ => none⟩
  step s l s' := step l s = some s'

/-- The map is the same, or one step was taken. -/
def Moves (s s' : MessageStore μ) : Prop := s' = s ∨ ∃ l, step l s = some s'

theorem Moves.refl (s : MessageStore μ) : s.Moves s := .inl rfl

theorem Moves.insert (s : MessageStore μ) (m : μ) :
    s.Moves ⟨s.counter + 1, Function.update s.messages s.counter (some m)⟩ :=
  .inr ⟨.insert m, rfl⟩

/-- An id that is not in use may be removed once more. -/
theorem Moves.remove (s : MessageStore μ) (id : Nat) :
    s.Moves { s with messages := Function.update s.messages id none } := by
  cases hid : s.messages id with
  | none =>
      left
      rw [Function.update_eq_self_iff.mpr hid.symm]
  | some m => exact .inr ⟨.remove id, if_pos (by rw [hid]; rfl)⟩

/-- No id from the next one on is in use. -/
theorem unused {s : MessageStore μ} (hs : system.Reachable s) {id : Nat} (hid : s.counter ≤ id) :
    s.messages id = none := by
  have hall : ∀ id, s.counter ≤ id → s.messages id = none := by
    refine hs.invariant (I := fun s => ∀ id, s.counter ≤ id → s.messages id = none) ?_ ?_
    · rintro s rfl id -
      rfl
    · intro s l s' hs hstep id hid
      cases l with
      | insert m =>
          cases hstep
          have hlt : s.counter < id := hid
          show Function.update s.messages s.counter (some m) id = none
          rw [Function.update_of_ne hlt.ne']
          exact hs id hlt.le
      | remove k =>
          simp only [system, step] at hstep
          split at hstep
          · cases hstep
            show Function.update s.messages k none id = none
            by_cases heq : id = k
            · rw [heq, Function.update_self]
            · rw [Function.update_of_ne heq]
              exact hs id hid
          · cases hstep
      | clear =>
          cases hstep
          rfl
  exact hall id hid

end MessageStore

namespace Spillable

variable {α : Type u} {β : Type v} {content : α → β} {cb : Callbacks α} {s s' : State α}
  {l : Label α}

/-- The ids in `items_`, with what was inserted under them. -/
def State.view (s : State α) : MessageStore (Message α) where
  counter := s.counter
  messages mid := if s.items mid then s.inserted mid else none

/-- What a step does to the ids in use. -/
inductive Effect (s s' : State α) : Prop where
  | same : s'.counter = s.counter → s'.items = s.items → s'.inserted = s.inserted → Effect s s'
  | insert (m : Message α) : s'.counter = s.counter + 1 →
      s'.items = Function.update s.items s.counter true →
      s'.inserted = Function.update s.inserted s.counter (some m) → Effect s s'
  | extract (mid : Nat) : s'.counter = s.counter →
      s'.items = Function.update s.items mid false → s'.inserted = s.inserted → Effect s s'
  | clear : s'.counter = s.counter → s'.items = (fun _ => false) →
      s'.inserted = s.inserted → Effect s s'

theorem step_effect (h : step cb l s = some s') : Effect s s' := by
  cases l with
  | insert m =>
      cases h
      exact .insert m rfl rfl rfl
  | extract i mid =>
      simp only [step] at h
      split at h
      · split at h
        · cases h
          exact .extract mid rfl rfl rfl
        · cases h
      · cases h
  | clear =>
      cases h
      exact .clear rfl rfl rfl
  | extractItem i =>
      simp only [step] at h
      split at h
      · split at h
        · cases h
          exact .same rfl rfl rfl
        · cases h
      · cases h
  | copy i mid t =>
      simp only [step] at h
      split at h
      · split at h
        · cases h
          exact .same rfl rfl rfl
        · cases h
      · cases h
  | copyLock i =>
      simp only [step] at h
      split at h
      · split at h
        · cases h
          exact .same rfl rfl rfl
        · cases h
          exact .same rfl rfl rfl
        · cases h
      · cases h
  | copyItem i throws =>
      simp only [step] at h
      split at h
      · split at h
        · cases h
          exact .same rfl rfl rfl
        · cases h
          exact .same rfl rfl rfl
      · cases h
  | spill i mid =>
      simp only [step] at h
      split at h
      · split at h
        · cases h
          exact .same rfl rfl rfl
        · cases h
      · cases h
  | spillTryLock i =>
      simp only [step] at h
      split at h
      · split at h
        · split at h
          · cases h
            exact .same rfl rfl rfl
          · cases h
            exact .same rfl rfl rfl
        · cases h
          exact .same rfl rfl rfl
      · cases h
  | spillItem i outcome =>
      simp only [step] at h
      split at h
      · split at h
        · split at h
          · cases h
            exact .same rfl rfl rfl
          · cases h
            exact .same rfl rfl rfl
        · split at h
          · split at h
            · cases h
              exact .same rfl rfl rfl
            · cases h
              exact .same rfl rfl rfl
          · cases h
        · cases h
          exact .same rfl rfl rfl
      · cases h
  | spillUpdate i =>
      simp only [step] at h
      split at h
      · split at h
        · cases h
          exact .same rfl rfl rfl
        · cases h
          exact .same rfl rfl rfl
      · cases h

/-- Seen as a map, a step is one of the map or changes nothing. -/
theorem step_view (h : step cb l s = some s') : s.view.Moves s'.view := by
  cases step_effect h with
  | same hcounter hitems hinserted =>
      refine .inl ?_
      rw [State.view, hcounter, hitems, hinserted]
      rfl
  | insert m hcounter hitems hinserted =>
      have hview : s'.view = ⟨s.view.counter + 1,
          Function.update s.view.messages s.view.counter (some m)⟩ := by
        rw [State.view, hcounter, hitems, hinserted]
        congr 1
        funext mid
        by_cases heq : mid = s.counter
        · simp [State.view, heq]
        · simp [State.view, Function.update_of_ne heq]
      rw [hview]
      exact .insert s.view m
  | extract mid hcounter hitems hinserted =>
      have hview : s'.view = { s.view with
          messages := Function.update s.view.messages mid none } := by
        rw [State.view, hcounter, hitems, hinserted]
        congr 1
        funext k
        by_cases heq : k = mid
        · simp [heq]
        · simp [State.view, Function.update_of_ne heq]
      rw [hview]
      exact .remove s.view mid
  | clear hcounter hitems hinserted =>
      refine .inr ⟨.clear, ?_⟩
      rw [State.view, State.view, hcounter, hitems, hinserted]
      rfl

/-- The store of spillable messages, seen as a map, is one in every reachable state. -/
theorem view_reachable (hs : (system cb).Reachable s) :
    MessageStore.system.Reachable s.view := by
  refine hs.refines ?_ fun s l s' _ h => step_view h
  rintro s ⟨n, rfl⟩
  exact .of_init rfl

/-- Under an id in use is the content that was inserted, unless it was lost. -/
theorem view_content (hcb : cb.Faithful content) (hs : (system cb).Reachable s) {mid : Nat}
    {m₀ : Message α} (hmid : s.view.messages mid = some m₀) :
    ∃ m, s.cells mid = some m ∧
      if mid ∈ s.lost then m.payload = none
      else m.payload.map content = m₀.payload.map content := by
  have hc := reachable_consistent hcb hs
  simp only [State.view] at hmid
  split at hmid
  · next hitem =>
      obtain ⟨m, hm⟩ := Option.ne_none_iff_exists'.mp (hc.live mid hitem)
      have hgenuine := hc.stored mid m hm
      rw [Genuine] at hgenuine
      refine ⟨m, hm, ?_⟩
      split
      · next hlost =>
          rw [if_pos hlost] at hgenuine
          exact hgenuine
      · next hkept =>
          rw [if_neg hkept, hmid] at hgenuine
          obtain ⟨m₁, hinserted, hsame⟩ := hgenuine
          cases hinserted
          exact hsame
  · cases hmid

end Spillable

namespace Channel

variable {α : Type u} {s s' : State α} {l : Label α}

/-- The store of the channel's context. -/
def State.view (s : State α) : MessageStore (Message α) := ⟨s.counter, s.store⟩

/-- A channel, and whoever else uses the store, changes it by steps of the map only. -/
theorem step_store (h : step l s = some s') : s.view.Moves s'.view := by
  cases l with
  | send m =>
      simp only [step] at h
      split at h
      · cases h
      · cases h
        exact .insert s.view m
  | produced k =>
      simp only [step] at h
      split at h
      · obtain ⟨ring, -, rfl⟩ := Option.map_eq_some_iff.mp h
        exact .refl _
      · cases h
  | refused k =>
      simp only [step] at h
      split at h
      · split at h
        · cases h
        · cases h
          exact .refl _
      · cases h
  | receive =>
      cases h
      exact .refl _
  | consumed k =>
      simp only [step] at h
      split at h
      · obtain ⟨x, -, rfl⟩ := Option.map_eq_some_iff.mp h
        exact .refl _
      · cases h
  | stopped k =>
      simp only [step] at h
      split at h
      · split at h
        · cases h
          exact .refl _
        · cases h
      · cases h
  | extract k =>
      simp only [step] at h
      split at h
      · next id hk =>
          cases h
          exact .remove s.view id
      · cases h
  | shutdown =>
      cases h
      exact .refl _
  | drain =>
      cases h
      exact .refl _
  | insertOther m =>
      cases h
      exact .insert s.view m
  | extractOther id =>
      simp only [step] at h
      split at h
      · cases h
      · cases h
        exact .remove s.view id

/-- A channel on a store of messages. -/
def onStore : System (State α) (Label α) where
  init s := system.init s ∧ MessageStore.system.Reachable s.view
  step := system.step

theorem store_reachable (hs : (onStore (α := α)).Reachable s) :
    MessageStore.system.Reachable s.view := by
  refine hs.refines ?_ fun s l s' _ hstep => step_store hstep
  rintro s ⟨-, hstore⟩
  exact hstore

/-- A message is sent under an id that is not in use. -/
theorem sends_unused (hs : (onStore (α := α)).Reachable s) : s.store s.counter = none :=
  MessageStore.unused (store_reachable hs) le_rfl

end Channel

namespace Unbounded

variable {α : Type u} {s s' : State α} {l : Label α}

/-- The store of the fanout's context. -/
def State.view (s : State α) : MessageStore α := ⟨s.shared.counter, s.shared.store⟩

/-- The fanout, and whoever else uses the store, changes it by steps of the map only. -/
theorem step_store (h : step l s = some s') : s.view.Moves s'.view := by
  cases l with
  | recv l =>
      obtain ⟨shared, hshared, rfl⟩ := Option.map_eq_some_iff.mp h
      cases recvStep_cases hshared with
      | stage hrecv => exact .insert s.view _
      | purge hrecv hlt hid => exact .remove s.view _
      | _ => exact .refl _
  | send i l =>
      simp only [step] at h
      split at h
      · obtain ⟨o', -, rfl⟩ := Option.map_eq_some_iff.mp h
        exact .refl _
      · cases h
  | consumer i c =>
      simp only [step] at h
      split at h
      · obtain ⟨outlet, -, rfl⟩ := Option.map_eq_some_iff.mp h
        exact .refl _
      · cases h
  | insertOther m =>
      cases h
      exact .insert s.view m

/-- The fanout of `input` on a store of messages. -/
def onStore (input : List α) : System (State α) (Label α) where
  init s := (system input).init s ∧ MessageStore.system.Reachable s.view
  step := (system input).step

theorem store_reachable {input : List α} (hs : (onStore input).Reachable s) :
    MessageStore.system.Reachable s.view := by
  refine hs.refines ?_ fun s l s' _ hstep => step_store hstep
  rintro s ⟨-, hstore⟩
  exact hstore

/-- A message is staged under an id that is not in use. -/
theorem stages_unused {input : List α} (hs : (onStore input).Reachable s) :
    s.shared.store s.shared.counter = none :=
  MessageStore.unused (store_reachable hs) le_rfl

end Unbounded

end Rapidsmpf.Streaming
