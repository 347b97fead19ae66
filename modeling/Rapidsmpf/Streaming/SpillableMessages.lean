import Mathlib
import Rapidsmpf.Lib.ListFacts
import Rapidsmpf.Lib.Transition
import Rapidsmpf.Streaming.Message

/-!
# The store of spillable messages

`streaming/core/spillable_messages.cpp` under any number of threads. The steps are the critical
sections of the global mutex and of the mutexes of the items: `extract`, `copy` and `spill` look
their item up under the global mutex, go on under the mutex of the item, which `spill` only tries
to lock, and `spill` takes the global mutex once more to store the new description. An item is
found through its id, which is never used again, so the cell of an item is named by the id also
after the item was removed from `items_`.

`linear` collects what holds in every reachable state. Spilling keeps the content of a message,
unless the move callback throws: then the payload is gone, as `Message::move` says.
-/

namespace Rapidsmpf.Streaming.Spillable

open Protocol ListFacts

universe u v

variable {α : Type u} {β : Type v}

/-- Where a thread is. -/
inductive Thread (α : Type u) where
  | idle
  /-- In `extract`: the item is removed from the map, its mutex not yet taken. -/
  | extracting (mid : Nat)
  /-- In `copy`: the item is found, its mutex not yet taken. -/
  | copying (mid : Nat) (t : MemoryType)
  /-- In `copy`, under the mutex of the item, which holds a message. -/
  | copyLocked (mid : Nat) (t : MemoryType) (m : Message α)
  /-- In `spill`: the item is found, its mutex not yet tried. -/
  | spilling (mid : Nat)
  /-- In `spill`, under the mutex of the item, which holds a message to spill. -/
  | spillLocked (mid : Nat) (old : ContentDescription)
  /-- In `spill`: the message is spilled, its new description not yet stored. -/
  | spilled (mid : Nat) (old new : ContentDescription)

/-- How the middle part of `spill` ends. -/
inductive SpillOutcome where
  /-- `reserve_or_fail` throws. -/
  | reserveFails
  /-- The move callback throws. -/
  | moveThrows
  /-- The message is moved into a reservation of this memory type. -/
  | moves (t : MemoryType)

/-- The store, the threads, and what has happened so far: what was inserted under each id, what
`extract` and `copy` returned, and the ids whose payload a throwing callback has lost. The counter
is a `std::uint64_t`: fewer than `2 ^ 64` messages are inserted, so it does not wrap. -/
structure State (α : Type u) where
  counter : Nat
  items : Nat → Bool
  contentDescriptions : Nat → Option ContentDescription
  cells : Nat → Option (Message α)
  /-- The thread that holds the mutex of an item. -/
  locks : Nat → Option Nat
  threads : List (Thread α)
  inserted : Nat → Option (Message α)
  extracted : List (Nat × Message α)
  copied : List (Nat × Message α)
  lost : List Nat

inductive Label (α : Type u) where
  | insert (m : Message α)
  | extract (i mid : Nat)
  | extractItem (i : Nat)
  | copy (i mid : Nat) (t : MemoryType)
  | copyLock (i : Nat)
  /-- The copy is made, or the callback is missing or throws. -/
  | copyItem (i : Nat) (throws : Bool)
  | spill (i mid : Nat)
  | spillTryLock (i : Nat)
  | spillItem (i : Nat) (outcome : SpillOutcome)
  | spillUpdate (i : Nat)
  | clear

/-- Thread `i` goes on at `th`. -/
def State.put (s : State α) (i : Nat) (th : Thread α) : State α :=
  { s with threads := s.threads.set i th }

/-- The mutex of an item is released. -/
def State.unlock (s : State α) (mid : Nat) : State α :=
  { s with locks := Function.update s.locks mid none }

/-- There is something to spill: the check of `spill` under the mutex of the item. -/
def spillsNow (cd : ContentDescription) : Bool :=
  cd.spillable && decide (0 < cd.contentSize .device)

/-- One step. A call that throws before it has changed anything leaves no trace here. -/
def step (cb : Callbacks α) (l : Label α) (s : State α) : Option (State α) :=
  match l with
  | .insert m => some { s with
      counter := s.counter + 1
      items := Function.update s.items s.counter true
      contentDescriptions :=
        Function.update s.contentDescriptions s.counter (some m.contentDescription)
      cells := Function.update s.cells s.counter (some m)
      inserted := Function.update s.inserted s.counter (some m) }
  | .extract i mid =>
      match s.threads[i]? with
      | some .idle =>
          if s.items mid then
            some ({ s with
              items := Function.update s.items mid false
              contentDescriptions := Function.update s.contentDescriptions mid none }.put i
                (.extracting mid))
          else none
      | _ => none
  | .extractItem i =>
      match s.threads[i]? with
      | some (.extracting mid) =>
          match s.locks mid, s.cells mid with
          -- the mutex is taken and released in one step, nobody sees it held
          | none, some m => some ({ s with
              cells := Function.update s.cells mid none
              extracted := s.extracted ++ [(mid, m)] }.put i .idle)
          | _, _ => none
      | _ => none
  | .copy i mid t =>
      match s.threads[i]? with
      | some .idle => if s.items mid then some (s.put i (.copying mid t)) else none
      | _ => none
  | .copyLock i =>
      match s.threads[i]? with
      | some (.copying mid t) =>
          match s.locks mid, s.cells mid with
          | none, some m =>
              some ({ s with locks := Function.update s.locks mid (some i) }.put i
                (.copyLocked mid t m))
          -- message not found
          | none, none => some (s.put i .idle)
          | some _, _ => none
      | _ => none
  | .copyItem i throws =>
      match s.threads[i]? with
      | some (.copyLocked mid t m) =>
          if m.hasCopy && !throws then
            some ({ s.unlock mid with copied := s.copied ++ [(mid, cb.copy t m)] }.put i .idle)
          else some ((s.unlock mid).put i .idle)
      | _ => none
  | .spill i mid =>
      match s.threads[i]? with
      | some .idle => if s.items mid then some (s.put i (.spilling mid)) else none
      | _ => none
  | .spillTryLock i =>
      match s.threads[i]? with
      | some (.spilling mid) =>
          match s.locks mid, s.cells mid with
          | none, some m =>
              if spillsNow m.contentDescription then
                some ({ s with locks := Function.update s.locks mid (some i) }.put i
                  (.spillLocked mid m.contentDescription))
              else some (s.put i .idle)
          | _, _ => some (s.put i .idle)
      | _ => none
  | .spillItem i outcome =>
      match s.threads[i]? with
      | some (.spillLocked mid old) =>
          match s.cells mid, outcome with
          | some m, .moveThrows =>
              if m.hasMove then
                some ({ s.unlock mid with
                  cells := Function.update s.cells mid (some m.reset)
                  lost := mid :: s.lost }.put i .idle)
              else some ((s.unlock mid).put i .idle)
          | some m, .moves t =>
              if t ∈ spillTargetMemoryTypes then
                if m.hasMove then
                  some ({ s.unlock mid with
                    cells := Function.update s.cells mid (some (cb.move t m)) }.put i
                      (.spilled mid old (cb.move t m).contentDescription))
                else some ((s.unlock mid).put i .idle)
              else none
          | _, _ => some ((s.unlock mid).put i .idle)
      | _ => none
  | .spillUpdate i =>
      match s.threads[i]? with
      | some (.spilled mid _ new) =>
          if (s.contentDescriptions mid).isSome then
            some ({ s with
              contentDescriptions := Function.update s.contentDescriptions mid (some new) }.put i
                .idle)
          else some (s.put i .idle)
      | _ => none
  | .clear => some { s with items := fun _ => false, contentDescriptions := fun _ => none }

/-- An empty store and `n` threads. -/
def State.initial (n : Nat) : State α where
  counter := 0
  items _ := false
  contentDescriptions _ := none
  cells _ := none
  locks _ := none
  threads := List.replicate n .idle
  inserted _ := none
  extracted := []
  copied := []
  lost := []

def system (cb : Callbacks α) : System (State α) (Label α) where
  init s := ∃ n, s = .initial n
  step s l s' := step cb l s = some s'

/-- What holds of thread `i` at `th`. -/
def Thread.Ok (s : State α) (i : Nat) : Thread α → Prop
  | .idle => True
  | .extracting mid => mid < s.counter ∧ s.items mid = false ∧ s.cells mid ≠ none
  | .copying mid _ => mid < s.counter
  | .copyLocked mid _ m => mid < s.counter ∧ s.locks mid = some i ∧ s.cells mid = some m
  | .spilling mid => mid < s.counter
  | .spillLocked mid old => mid < s.counter ∧ s.locks mid = some i ∧
      ∃ m, s.cells mid = some m ∧ m.contentDescription = old ∧ 0 < old.contentSize .device
  | .spilled mid _ new => mid < s.counter ∧
      ∀ m, s.cells mid = some m → m.contentDescription = new ∧ new.contentSize .device = 0

/-- The message found under an id is the one that was inserted, or its payload was lost. -/
def Genuine (content : α → β) (s : State α) (mid : Nat) (m : Message α) : Prop :=
  if mid ∈ s.lost then m.payload = none
  else ∃ m₀, s.inserted mid = some m₀ ∧ m.payload.map content = m₀.payload.map content

/-- The invariant of the store. -/
structure Consistent (content : α → β) (s : State α) : Prop where
  /-- The two maps have the same keys. -/
  keys : ∀ mid, s.items mid = (s.contentDescriptions mid).isSome
  /-- Ids that were not handed out are not used. -/
  fresh : ∀ mid, s.counter ≤ mid → s.items mid = false ∧ s.cells mid = none ∧ mid ∉ s.lost
  threads : ∀ (i : Nat) (th : Thread α), s.threads[i]? = some th → th.Ok s i
  /-- One call at a time extracts an id. -/
  unique : ∀ i j mid : Nat, s.threads[i]? = some (.extracting mid) →
    s.threads[j]? = some (.extracting mid) → i = j
  /-- A message leaves its cell when it is extracted, and only then. -/
  cells : ∀ mid < s.counter, s.cells mid = none ↔ mid ∈ s.extracted.map Prod.fst
  live : ∀ mid, s.items mid = true → s.cells mid ≠ none
  nodup : (s.extracted.map Prod.fst).Nodup
  bounded : ∀ x ∈ s.extracted, x.1 < s.counter
  stored : ∀ (mid : Nat) (m : Message α), s.cells mid = some m → Genuine content s mid m
  returned : ∀ x ∈ s.extracted, Genuine content s x.1 x.2
  /-- The description is that of the message, or a spill is about to store that one. -/
  described : ∀ (mid : Nat) (m : Message α), s.items mid = true → s.cells mid = some m →
    s.contentDescriptions mid = some m.contentDescription ∨
      ∃ (i : Nat) (old : ContentDescription),
        s.threads[i]? = some (.spilled mid old m.contentDescription)

section Invariant

variable {content : α → β} {cb : Callbacks α} {s s' : State α} {i j : Nat} {th th' : Thread α}

/-- What a step must leave alone for another thread `j`: the cells it reads, unless the thread
neither holds their mutex nor has anything to say of them. -/
theorem Thread.Ok.frame (h : th.Ok s j) (hcounter : s.counter ≤ s'.counter)
    (hitems : ∀ mid < s.counter, s.items mid = false → s'.items mid = false)
    (hlocks : ∀ mid, s.locks mid = some j → s'.locks mid = some j)
    (hcells : ∀ mid < s.counter, s'.cells mid = s.cells mid ∨
      s.locks mid ≠ some j ∧ (th = .extracting mid → s'.cells mid ≠ none) ∧
        ∀ old new, th = .spilled mid old new → s'.cells mid = none) : th.Ok s' j := by
  cases th with
  | idle => trivial
  | extracting mid =>
      obtain ⟨hmid, hitem, hcell⟩ := h
      refine ⟨hmid.trans_le hcounter, hitems mid hmid hitem, ?_⟩
      rcases hcells mid hmid with hsame | ⟨-, hextracting, -⟩
      · rw [hsame]
        exact hcell
      · exact hextracting rfl
  | copying mid t => exact Nat.lt_of_lt_of_le h hcounter
  | copyLocked mid t m =>
      obtain ⟨hmid, hlock, hcell⟩ := h
      refine ⟨hmid.trans_le hcounter, hlocks mid hlock, ?_⟩
      rcases hcells mid hmid with hsame | ⟨hother, -⟩
      · rw [hsame]
        exact hcell
      · exact absurd hlock hother
  | spilling mid => exact Nat.lt_of_lt_of_le h hcounter
  | spillLocked mid old =>
      obtain ⟨hmid, hlock, hcell⟩ := h
      refine ⟨hmid.trans_le hcounter, hlocks mid hlock, ?_⟩
      rcases hcells mid hmid with hsame | ⟨hother, -⟩
      · rw [hsame]
        exact hcell
      · exact absurd hlock hother
  | spilled mid old new =>
      obtain ⟨hmid, hcell⟩ := h
      refine ⟨hmid.trans_le hcounter, fun m hm => ?_⟩
      rcases hcells mid hmid with hsame | ⟨-, -, hspilled⟩
      · exact hcell m (hsame ▸ hm)
      · rw [hspilled old new rfl] at hm
        cases hm

/-- A thread changes its place, and possibly the mutexes it holds, but nothing in the store. -/
theorem Consistent.put_thread {locks : Nat → Option Nat} {copied : List (Nat × Message α)}
    (hc : Consistent content s) (hi : s.threads[i]? = some th)
    (hlocks : ∀ mid j, j ≠ i → s.locks mid = some j → locks mid = some j)
    (hok : th'.Ok { s with locks } i) (hextracting : ∀ mid, th' ≠ .extracting mid)
    (hspilled : ∀ mid old new, th ≠ .spilled mid old new) :
    Consistent content ({ s with locks, copied }.put i th') := by
  refine ⟨hc.keys, hc.fresh, fun j x hj => ?_, fun a b mid ha hb => ?_, hc.cells, hc.live, hc.nodup,
    hc.bounded, hc.stored, hc.returned, fun mid m hitem hm => ?_⟩
  · rcases getElem?_set_cases hi hj with ⟨rfl, rfl⟩ | ⟨hji, hj'⟩
    · exact hok
    · exact (hc.threads j x hj').frame le_rfl (fun _ _ h => h) (fun mid h => hlocks mid j hji h)
        fun _ _ => .inl rfl
  · rcases getElem?_set_cases hi ha with ⟨-, heq⟩ | ⟨-, ha'⟩
    · exact absurd heq.symm (hextracting mid)
    · rcases getElem?_set_cases hi hb with ⟨-, heq⟩ | ⟨-, hb'⟩
      · exact absurd heq.symm (hextracting mid)
      · exact hc.unique a b mid ha' hb'
  · rcases hc.described mid m hitem hm with hsame | ⟨j, old, hj⟩
    · exact .inl hsame
    · have hji : i ≠ j := by
        rintro rfl
        rw [hi] at hj
        exact hspilled mid old _ (Option.some.inj hj)
      refine .inr ⟨j, old, ?_⟩
      rw [State.put, List.getElem?_set_ne hji]
      exact hj

/-- Only the lost ids and what was inserted matter. -/
theorem Genuine.congr {mid : Nat} {m : Message α} (h : Genuine content s mid m)
    (hlost : mid ∈ s'.lost ↔ mid ∈ s.lost) (hinserted : s'.inserted mid = s.inserted mid) :
    Genuine content s' mid m := by
  rw [Genuine] at h ⊢
  simp only [hlost, hinserted]
  exact h

/-- `insert`: the new id was not used before. -/
theorem Consistent.insert (hc : Consistent content s) (m : Message α) :
    Consistent content { s with
      counter := s.counter + 1
      items := Function.update s.items s.counter true
      contentDescriptions :=
        Function.update s.contentDescriptions s.counter (some m.contentDescription)
      cells := Function.update s.cells s.counter (some m)
      inserted := Function.update s.inserted s.counter (some m) } := by
  have hne : ∀ mid, mid < s.counter → mid ≠ s.counter := fun mid h => Nat.ne_of_lt h
  refine ⟨fun mid => ?_, fun mid hmid => ?_, fun j x hj => ?_, hc.unique, fun mid hmid => ?_,
    fun mid hmid => ?_, hc.nodup, fun x hx => ?_, fun mid m' hm' => ?_, fun x hx => ?_,
    fun mid m' hitem hm' => ?_⟩
  · by_cases heq : mid = s.counter
    · simp [heq]
    · simp only [Function.update_of_ne heq]
      exact hc.keys mid
  · have hmid : s.counter + 1 ≤ mid := hmid
    have heq : mid ≠ s.counter := by omega
    simp only [Function.update_of_ne heq]
    exact hc.fresh mid (by omega)
  · refine (hc.threads j x hj).frame (Nat.le_succ _) (fun mid hmid h => ?_) (fun _ h => h)
      fun mid hmid => .inl ?_
    · simp only [Function.update_of_ne (hne mid hmid)]
      exact h
    · exact Function.update_of_ne (hne mid hmid) _ _
  · by_cases heq : mid = s.counter
    · subst heq
      have hnot : s.counter ∉ s.extracted.map Prod.fst := by
        intro hmem
        obtain ⟨x, hx, hfst⟩ := List.mem_map.mp hmem
        have hlt := hc.bounded x hx
        omega
      simp [hnot]
    · have hmid : mid < s.counter + 1 := hmid
      simp only [Function.update_of_ne heq]
      exact hc.cells mid (by omega)
  · by_cases heq : mid = s.counter
    · simp [heq]
    · simp only [Function.update_of_ne heq] at hmid ⊢
      exact hc.live mid hmid
  · exact Nat.lt_succ_of_lt (hc.bounded x hx)
  · by_cases heq : mid = s.counter
    · subst heq
      have hnot : s.counter ∉ s.lost := (hc.fresh s.counter le_rfl).2.2
      rw [Genuine, if_neg hnot]
      obtain rfl : m = m' := by simpa using hm'
      exact ⟨m, by simp, rfl⟩
    · simp only [Function.update_of_ne heq] at hm'
      exact (hc.stored mid m' hm').congr Iff.rfl (Function.update_of_ne heq _ _)
  · exact (hc.returned x hx).congr Iff.rfl
      (Function.update_of_ne (hne _ (hc.bounded x hx)) _ _)
  · by_cases heq : mid = s.counter
    · subst heq
      obtain rfl : m = m' := by simpa using hm'
      simp
    · simp only [Function.update_of_ne heq] at hitem hm' ⊢
      exact hc.described mid m' hitem hm'

/-- The first part of `extract`. -/
theorem Consistent.extract {mid : Nat} (hc : Consistent content s) (hi : s.threads[i]? = some .idle)
    (hitem : s.items mid = true) :
    Consistent content ({ s with
      items := Function.update s.items mid false
      contentDescriptions := Function.update s.contentDescriptions mid none }.put i
        (.extracting mid)) := by
  have hlt : mid < s.counter := by
    by_contra hge
    have hfresh := (hc.fresh mid (Nat.le_of_not_lt hge)).1
    rw [hitem] at hfresh
    cases hfresh
  have hlive := hc.live mid hitem
  -- nobody else extracts an id that is in the map
  have hnone : ∀ j : Nat, s.threads[j]? ≠ some (Thread.extracting mid) := by
    intro j hj
    have hfalse := (hc.threads j _ hj).2.1
    rw [hitem] at hfalse
    cases hfalse
  have hdown : ∀ k, s.items k = false → Function.update s.items mid false k = false := by
    intro k hk
    by_cases heq : k = mid
    · simp [heq]
    · rw [Function.update_of_ne heq]
      exact hk
  have hup : ∀ k, Function.update s.items mid false k = true → k ≠ mid ∧ s.items k = true := by
    intro k hk
    by_cases heq : k = mid
    · simp [heq] at hk
    · rw [Function.update_of_ne heq] at hk
      exact ⟨heq, hk⟩
  refine ⟨fun k => ?_, fun k hk => ?_, fun j x hj => ?_, fun a b k ha hb => ?_, hc.cells,
    fun k hk => ?_, hc.nodup, hc.bounded, hc.stored, hc.returned, fun k m hk hm => ?_⟩
  · by_cases heq : k = mid
    · simp [State.put, heq]
    · simp only [State.put, Function.update_of_ne heq]
      exact hc.keys k
  · exact ⟨hdown k (hc.fresh k hk).1, (hc.fresh k hk).2⟩
  · rcases getElem?_set_cases hi hj with ⟨rfl, rfl⟩ | ⟨hji, hj'⟩
    · exact ⟨hlt, by simp [State.put], hlive⟩
    · exact (hc.threads j x hj').frame le_rfl (fun k _ h => hdown k h) (fun _ h => h)
        fun _ _ => .inl rfl
  · rcases getElem?_set_cases hi ha with ⟨hai, heq⟩ | ⟨-, ha'⟩
    · cases heq
      rcases getElem?_set_cases hi hb with ⟨hbi, -⟩ | ⟨-, hb'⟩
      · rw [hai, hbi]
      · exact absurd hb' (hnone b)
    · rcases getElem?_set_cases hi hb with ⟨-, heq⟩ | ⟨-, hb'⟩
      · cases heq
        exact absurd ha' (hnone a)
      · exact hc.unique a b k ha' hb'
  · exact hc.live k (hup k hk).2
  · obtain ⟨hne, hk⟩ := hup k hk
    rcases hc.described k m hk hm with hsame | ⟨j, old, hj⟩
    · refine .inl ?_
      simp only [State.put, Function.update_of_ne hne]
      exact hsame
    · have hji : i ≠ j := by
        rintro rfl
        rw [hi] at hj
        cases hj
      refine .inr ⟨j, old, ?_⟩
      rw [State.put, List.getElem?_set_ne hji]
      exact hj

/-- The second part of `extract`: the message leaves its cell. -/
theorem Consistent.extract_item {mid : Nat} {m : Message α} (hc : Consistent content s)
    (hi : s.threads[i]? = some (.extracting mid)) (hlock : s.locks mid = none)
    (hcell : s.cells mid = some m) :
    Consistent content ({ s with
      cells := Function.update s.cells mid none
      extracted := s.extracted ++ [(mid, m)] }.put i .idle) := by
  obtain ⟨hmid, hitem, -⟩ := hc.threads i _ hi
  have hnot : mid ∉ s.extracted.map Prod.fst := by
    rw [← hc.cells mid hmid, hcell]
    exact nofun
  have hitems : ∀ k, s.items k = true → k ≠ mid := by
    rintro k hk rfl
    rw [hitem] at hk
    cases hk
  refine ⟨hc.keys, fun k hk => ?_, fun j x hj => ?_, fun a b k ha hb => ?_, fun k hk => ?_,
    fun k hk => ?_, ?_, fun x hx => ?_, fun k m' hm' => ?_, fun x hx => ?_, fun k m' hk hm' => ?_⟩
  · have hne : k ≠ mid := by
      rintro rfl
      exact absurd hmid (Nat.not_lt_of_le hk)
    simp only [State.put, Function.update_of_ne hne]
    exact hc.fresh k hk
  · rcases getElem?_set_cases hi hj with ⟨rfl, rfl⟩ | ⟨hji, hj'⟩
    · trivial
    · refine (hc.threads j x hj').frame le_rfl (fun _ _ h => h) (fun _ h => h) fun k hk => ?_
      by_cases hkm : k = mid
      · subst hkm
        refine .inr ⟨by rw [hlock]; exact nofun, fun hx => ?_, fun _ _ _ => by simp [State.put]⟩
        -- the id would be extracted twice
        subst hx
        exact absurd (hc.unique j i k hj' hi) hji
      · exact .inl (Function.update_of_ne hkm _ _)
  · rcases getElem?_set_cases hi ha with ⟨-, heq⟩ | ⟨-, ha'⟩
    · cases heq
    · rcases getElem?_set_cases hi hb with ⟨-, heq⟩ | ⟨-, hb'⟩
      · cases heq
      · exact hc.unique a b k ha' hb'
  · by_cases hkm : k = mid
    · simp [State.put, hkm]
    · simp only [State.put, Function.update_of_ne hkm, List.map_append, List.mem_append,
        List.map_cons, List.map_nil, List.mem_singleton, hkm, or_false]
      exact hc.cells k hk
  · simp only [State.put, Function.update_of_ne (hitems k hk)]
    exact hc.live k hk
  · simp only [State.put, List.map_append, List.map_cons, List.map_nil]
    refine List.nodup_append.mpr ⟨hc.nodup, List.nodup_singleton _, ?_⟩
    rintro a ha b hb rfl
    rw [List.mem_singleton.mp hb] at ha
    exact hnot ha
  · rcases List.mem_append.mp hx with hx | hx
    · exact hc.bounded x hx
    · rw [List.mem_singleton.mp hx]
      exact hmid
  · have hkm : k ≠ mid := by
      rintro rfl
      simp [State.put] at hm'
    simp only [State.put, Function.update_of_ne hkm] at hm'
    exact hc.stored k m' hm'
  · rcases List.mem_append.mp hx with hx | hx
    · exact hc.returned x hx
    · rw [List.mem_singleton.mp hx]
      exact hc.stored mid m hcell
  · simp only [State.put, Function.update_of_ne (hitems k hk)] at hm' ⊢
    rcases hc.described k m' hk hm' with hsame | ⟨j, old, hj⟩
    · exact .inl hsame
    · have hji : i ≠ j := by
        rintro rfl
        rw [hi] at hj
        cases hj
      refine .inr ⟨j, old, ?_⟩
      rw [List.getElem?_set_ne hji]
      exact hj

/-- The middle part of `spill`: the message in the cell is replaced by `m'`, which is in no
thread's hands, and the thread goes on at `th'`. -/
theorem Consistent.spill_item {mid : Nat} {old : ContentDescription} {m m' : Message α}
    {lost : List Nat} (hc : Consistent content s)
    (hi : s.threads[i]? = some (.spillLocked mid old)) (hcell : s.cells mid = some m)
    (hlost : ∀ k, k ≠ mid → (k ∈ lost ↔ k ∈ s.lost))
    (hgenuine : Genuine content { s with lost } mid m')
    (hth : th' = .idle ∧ m'.contentDescription = old ∨
      th' = .spilled mid old m'.contentDescription ∧
        m'.contentDescription.contentSize .device = 0) :
    Consistent content ({ s.unlock mid with
      cells := Function.update s.cells mid (some m'), lost }.put i th') := by
  obtain ⟨hmid, hlock, m₀, hcell₀, hold, hpos⟩ := hc.threads i _ hi
  obtain rfl : m₀ = m := Option.some.inj (hcell₀.symm.trans hcell)
  -- a spill that is about to store its description has left nothing on the device
  have hsole : ∀ (j : Nat) (a b : ContentDescription),
      s.threads[j]? ≠ some (Thread.spilled mid a b) := by
    intro j a b hj
    obtain ⟨hdescription, hzero⟩ := (hc.threads j _ hj).2 m₀ hcell
    rw [hold] at hdescription
    rw [hdescription, hzero] at hpos
    exact absurd hpos (Nat.lt_irrefl 0)
  have hextracting : ∀ k, th' ≠ .extracting k := by
    rintro k rfl
    rcases hth with ⟨heq, -⟩ | ⟨heq, -⟩ <;> cases heq
  have hnot : mid ∉ s.extracted.map Prod.fst := by
    rw [← hc.cells mid hmid, hcell]
    exact nofun
  refine ⟨hc.keys, fun k hk => ?_, fun j x hj => ?_, fun a b k ha hb => ?_, fun k hk => ?_,
    fun k hk => ?_, hc.nodup, hc.bounded, fun k m'' hm'' => ?_, fun x hx => ?_,
    fun k m'' hk hm'' => ?_⟩
  · have hne : k ≠ mid := by
      rintro rfl
      exact absurd hmid (Nat.not_lt_of_le hk)
    obtain ⟨hfresh, hnone, hnew⟩ := hc.fresh k hk
    refine ⟨hfresh, ?_, fun hmem => hnew ((hlost k hne).mp hmem)⟩
    simp only [State.put, Function.update_of_ne hne]
    exact hnone
  · rcases getElem?_set_cases hi hj with ⟨rfl, rfl⟩ | ⟨hji, hj'⟩
    · rcases hth with ⟨rfl, -⟩ | ⟨rfl, hzero⟩
      · trivial
      · refine ⟨hmid, fun m'' hm'' => ?_⟩
        obtain rfl : m' = m'' := by simpa [State.put] using hm''
        exact ⟨rfl, hzero⟩
    · refine (hc.threads j x hj').frame le_rfl (fun _ _ h => h) (fun k h => ?_) fun k hk => ?_
      · have hkm : k ≠ mid := by
          rintro rfl
          rw [hlock] at h
          exact hji (Option.some.inj h).symm
        simp only [State.put, State.unlock, Function.update_of_ne hkm]
        exact h
      · by_cases hkm : k = mid
        · subst hkm
          refine .inr ⟨?_, fun _ => by simp [State.put], fun a b hx => ?_⟩
          · rw [hlock]
            exact fun h => hji (Option.some.inj h).symm
          · rw [hx] at hj'
            exact absurd hj' (hsole j a b)
        · exact .inl (Function.update_of_ne hkm _ _)
  · rcases getElem?_set_cases hi ha with ⟨-, heq⟩ | ⟨-, ha'⟩
    · exact absurd heq.symm (hextracting k)
    · rcases getElem?_set_cases hi hb with ⟨-, heq⟩ | ⟨-, hb'⟩
      · exact absurd heq.symm (hextracting k)
      · exact hc.unique a b k ha' hb'
  · by_cases hkm : k = mid
    · subst hkm
      simp [State.put, State.unlock, hnot]
    · simp only [State.put, Function.update_of_ne hkm]
      exact hc.cells k hk
  · by_cases hkm : k = mid
    · simp [State.put, hkm]
    · simp only [State.put, Function.update_of_ne hkm]
      exact hc.live k hk
  · by_cases hkm : k = mid
    · subst hkm
      obtain rfl : m' = m'' := by simpa [State.put] using hm''
      exact hgenuine
    · simp only [State.put, Function.update_of_ne hkm] at hm''
      exact (hc.stored k m'' hm'').congr (hlost k hkm) rfl
  · have hkm : x.1 ≠ mid := fun heq => hnot (heq ▸ List.mem_map_of_mem hx)
    exact (hc.returned x hx).congr (hlost x.1 hkm) rfl
  · by_cases hkm : k = mid
    · subst hkm
      obtain rfl : m' = m'' := by simpa [State.put] using hm''
      rcases hth with ⟨-, hsame⟩ | ⟨rfl, -⟩
      · rcases hc.described k m₀ hk hcell with hdescribed | ⟨j, a, hj⟩
        · exact .inl (by rw [hsame, ← hold]; exact hdescribed)
        · exact absurd hj (hsole j a _)
      · have hlt : i < s.threads.length := (List.getElem?_eq_some_iff.mp hi).1
        exact .inr ⟨i, old, List.getElem?_set_self hlt⟩
    · simp only [State.put, Function.update_of_ne hkm] at hm''
      rcases hc.described k m'' hk hm'' with hsame | ⟨j, a, hj⟩
      · exact .inl hsame
      · have hji : i ≠ j := by
          rintro rfl
          rw [hi] at hj
          cases hj
        refine .inr ⟨j, a, ?_⟩
        rw [State.put, List.getElem?_set_ne hji]
        exact hj

/-- The last part of `spill`: the description that is stored is that of the message, if the id
is still there. -/
theorem Consistent.spill_update {mid : Nat} {old new : ContentDescription}
    {descriptions : Nat → Option ContentDescription} (hc : Consistent content s)
    (hi : s.threads[i]? = some (.spilled mid old new))
    (hmid : s.items mid = true → descriptions mid = some new)
    (hkeys : ∀ k, (descriptions k).isSome = (s.contentDescriptions k).isSome)
    (hothers : ∀ k, k ≠ mid → descriptions k = s.contentDescriptions k) :
    Consistent content ({ s with contentDescriptions := descriptions }.put i .idle) := by
  have hnew := (hc.threads i _ hi).2
  refine ⟨fun k => (hc.keys k).trans (hkeys k).symm, hc.fresh, fun j x hj => ?_,
    fun a b k ha hb => ?_, hc.cells, hc.live, hc.nodup, hc.bounded, hc.stored, hc.returned,
    fun k m hk hm => ?_⟩
  · rcases getElem?_set_cases hi hj with ⟨rfl, rfl⟩ | ⟨-, hj'⟩
    · trivial
    · exact (hc.threads j x hj').frame le_rfl (fun _ _ h => h) (fun _ h => h) fun _ _ => .inl rfl
  · rcases getElem?_set_cases hi ha with ⟨-, heq⟩ | ⟨-, ha'⟩
    · cases heq
    · rcases getElem?_set_cases hi hb with ⟨-, heq⟩ | ⟨-, hb'⟩
      · cases heq
      · exact hc.unique a b k ha' hb'
  · by_cases hkm : k = mid
    · subst hkm
      obtain ⟨rfl, -⟩ := hnew m hm
      exact .inl (hmid hk)
    · rcases hc.described k m hk hm with hsame | ⟨j, a, hj⟩
      · exact .inl ((hothers k hkm).trans hsame)
      · have hji : i ≠ j := by
          rintro rfl
          rw [hi] at hj
          cases hj
          exact hkm rfl
        refine .inr ⟨j, a, ?_⟩
        rw [State.put, List.getElem?_set_ne hji]
        exact hj

theorem Consistent.clear (hc : Consistent content s) :
    Consistent content
      { s with items := fun _ => false, contentDescriptions := fun _ => none } := by
  refine ⟨fun _ => rfl, fun k hk => ⟨rfl, (hc.fresh k hk).2⟩, fun j x hj => ?_, hc.unique, hc.cells,
    nofun, hc.nodup, hc.bounded, hc.stored, hc.returned, nofun⟩
  exact (hc.threads j x hj).frame le_rfl (fun _ _ _ => rfl) (fun _ h => h) fun _ _ => .inl rfl

/-- An id in the map was handed out. -/
theorem Consistent.lt_of_item {mid : Nat} (hc : Consistent content s) (h : s.items mid = true) :
    mid < s.counter := by
  by_contra hge
  have hfresh := (hc.fresh mid (Nat.le_of_not_lt hge)).1
  rw [h] at hfresh
  cases hfresh

/-- A thread that holds no mutex and is not about to store a description goes back to idle. -/
theorem Consistent.put_idle (hc : Consistent content s) (hi : s.threads[i]? = some th)
    (hspilled : ∀ mid old new, th ≠ .spilled mid old new) : Consistent content (s.put i .idle) :=
  hc.put_thread hi (fun _ _ _ h => h) trivial nofun hspilled

/-- A thread gives the mutex of an item back. -/
theorem Consistent.put_unlocked {mid : Nat} {copied : List (Nat × Message α)}
    (hc : Consistent content s) (hi : s.threads[i]? = some th) (hlock : s.locks mid = some i)
    (hspilled : ∀ mid old new, th ≠ .spilled mid old new) :
    Consistent content ({ s.unlock mid with copied }.put i .idle) := by
  refine hc.put_thread hi (fun k j hji h => ?_) trivial nofun hspilled
  have hne : k ≠ mid := by
    rintro rfl
    rw [hlock] at h
    exact hji (Option.some.inj h).symm
  simp only [State.unlock, Function.update_of_ne hne]
  exact h

/-- A thread takes the mutex of an item. -/
theorem Consistent.put_locked {mid : Nat} (hc : Consistent content s)
    (hi : s.threads[i]? = some th) (hlock : s.locks mid = none)
    (hok : th'.Ok { s with locks := Function.update s.locks mid (some i) } i)
    (hextracting : ∀ mid, th' ≠ .extracting mid)
    (hspilled : ∀ mid old new, th ≠ .spilled mid old new) :
    Consistent content ({ s with locks := Function.update s.locks mid (some i) }.put i th') := by
  refine hc.put_thread hi (fun k j hji h => ?_) hok hextracting hspilled
  have hne : k ≠ mid := by
    rintro rfl
    rw [hlock] at h
    cases h
  rw [Function.update_of_ne hne]
  exact h

/-- Moving a message keeps it genuine. -/
theorem Genuine.move {mid : Nat} {m : Message α} {t : MemoryType} (hcb : cb.Faithful content)
    (h : Genuine content s mid m) : Genuine content s mid (cb.move t m) := by
  have hmove := hcb.move_content t m
  rw [Genuine] at h ⊢
  split at h
  · next hlost =>
      rw [if_pos hlost]
      rw [h] at hmove
      exact Option.map_eq_none_iff.mp hmove
  · next hkept =>
      obtain ⟨m₀, hinserted, hsame⟩ := h
      rw [if_neg hkept]
      exact ⟨m₀, hinserted, hmove.trans hsame⟩

/-- The first part of `extract` takes the id out of the maps. -/
theorem Consistent.step_extract {mid : Nat} (hc : Consistent content s)
    (h : Spillable.step cb (.extract i mid) s = some s') : Consistent content s' := by
  simp only [Spillable.step] at h
  split at h
  case h_2 => cases h
  case h_1 hi =>
    split at h
    · next hitem =>
        cases h
        exact hc.extract hi hitem
    · cases h

/-- The second part of `extract` takes the message. -/
theorem Consistent.step_extract_item (hc : Consistent content s)
    (h : Spillable.step cb (.extractItem i) s = some s') : Consistent content s' := by
  simp only [Spillable.step] at h
  split at h
  case h_2 => cases h
  case h_1 mid hi =>
    split at h
    · next m hlock hcell =>
        cases h
        exact hc.extract_item hi hlock hcell
    · cases h

/-- `copy` finds the id. -/
theorem Consistent.step_copy {mid : Nat} {t : MemoryType} (hc : Consistent content s)
    (h : Spillable.step cb (.copy i mid t) s = some s') : Consistent content s' := by
  simp only [Spillable.step] at h
  split at h
  case h_2 => cases h
  case h_1 hi =>
    split at h
    · next hitem =>
        cases h
        exact hc.put_thread hi (fun _ _ _ h => h) (hc.lt_of_item hitem) nofun nofun
    · cases h

/-- `copy` takes the mutex of the item, or finds no message. -/
theorem Consistent.step_copy_lock (hc : Consistent content s)
    (h : Spillable.step cb (.copyLock i) s = some s') : Consistent content s' := by
  simp only [Spillable.step] at h
  split at h
  case h_2 => cases h
  case h_1 mid t hi =>
    have hmid : mid < s.counter := hc.threads i _ hi
    split at h
    · next m hlock hcell =>
        cases h
        exact hc.put_locked hi hlock ⟨hmid, Function.update_self _ _ _, hcell⟩ nofun nofun
    · cases h
      exact hc.put_idle hi nofun
    · cases h

/-- `copy` copies the message, or throws, and gives the mutex back. -/
theorem Consistent.step_copy_item {throws : Bool} (hc : Consistent content s)
    (h : Spillable.step cb (.copyItem i throws) s = some s') : Consistent content s' := by
  simp only [Spillable.step] at h
  split at h
  case h_2 => cases h
  case h_1 mid t m hi =>
    have hlock := (hc.threads i _ hi).2.1
    split at h
    · cases h
      exact hc.put_unlocked hi hlock nofun
    · cases h
      exact hc.put_unlocked hi hlock nofun

/-- `spill` finds the id. -/
theorem Consistent.step_spill {mid : Nat} (hc : Consistent content s)
    (h : Spillable.step cb (.spill i mid) s = some s') : Consistent content s' := by
  simp only [Spillable.step] at h
  split at h
  case h_2 => cases h
  case h_1 hi =>
    split at h
    · next hitem =>
        cases h
        exact hc.put_thread hi (fun _ _ _ h => h) (hc.lt_of_item hitem) nofun nofun
    · cases h

/-- `spill` takes the mutex of the item if nobody has it and there is something to spill. -/
theorem Consistent.step_spill_try_lock (hc : Consistent content s)
    (h : Spillable.step cb (.spillTryLock i) s = some s') : Consistent content s' := by
  simp only [Spillable.step] at h
  split at h
  case h_2 => cases h
  case h_1 mid hi =>
    have hmid : mid < s.counter := hc.threads i _ hi
    split at h
    · next m hlock hcell =>
        split at h
        · next hspills =>
            cases h
            have hpos : 0 < m.contentDescription.contentSize .device := by
              simp only [spillsNow, Bool.and_eq_true, decide_eq_true_eq] at hspills
              exact hspills.2
            exact hc.put_locked hi hlock
              ⟨hmid, Function.update_self _ _ _, m, hcell, rfl, hpos⟩ nofun nofun
        · cases h
          exact hc.put_idle hi nofun
    · cases h
      exact hc.put_idle hi nofun

/-- `spill` moves the message, and loses it where the callback throws. -/
theorem Consistent.step_spill_item {outcome : SpillOutcome} (hcb : cb.Faithful content)
    (hc : Consistent content s) (h : Spillable.step cb (.spillItem i outcome) s = some s') :
    Consistent content s' := by
  simp only [Spillable.step] at h
  split at h
  case h_2 => cases h
  case h_1 mid old hi =>
    obtain ⟨hmid, hlock, m₀, hcell₀, hold, -⟩ := hc.threads i _ hi
    split at h
    · next m hcell =>
        obtain rfl : m₀ = m := Option.some.inj (hcell₀.symm.trans hcell)
        split at h
        · -- a callback that throws after the payload was moved out leaves it empty
          cases h
          have hgenuine : Genuine content { s with lost := mid :: s.lost } mid m₀.reset := by
            rw [Genuine, if_pos List.mem_cons_self]
            rfl
          exact hc.spill_item hi hcell (fun k hk => by simp [hk]) hgenuine (.inl ⟨rfl, hold⟩)
        · cases h
          exact hc.put_unlocked hi hlock nofun
    · next m t hcell =>
        split at h
        case isFalse => cases h
        case isTrue htarget =>
          split at h
          · cases h
            have hdevice : t ≠ .device := by
              rintro rfl
              simp [spillTargetMemoryTypes] at htarget
            exact hc.spill_item hi hcell (fun _ _ => Iff.rfl) ((hc.stored mid m hcell).move hcb)
              (.inr ⟨rfl, hcb.move_device t m hdevice⟩)
          · cases h
            exact hc.put_unlocked hi hlock nofun
    · cases h
      exact hc.put_unlocked hi hlock nofun

/-- The last part of `spill` stores the description, if the id is still there. -/
theorem Consistent.step_spill_update (hc : Consistent content s)
    (h : Spillable.step cb (.spillUpdate i) s = some s') : Consistent content s' := by
  simp only [Spillable.step] at h
  split at h
  case h_2 => cases h
  case h_1 mid old new hi =>
    split at h
    · next hsome =>
        cases h
        refine hc.spill_update hi (fun _ => Function.update_self _ _ _) (fun k => ?_)
          fun k hk => Function.update_of_ne hk _ _
        by_cases hk : k = mid
        · subst hk
          simp [hsome]
        · rw [Function.update_of_ne hk]
    · next hnone =>
        -- the message was extracted in the meantime: there is no description to store
        cases h
        refine hc.spill_update hi (fun hitem => ?_) (fun _ => rfl) fun _ _ => rfl
        rw [hc.keys mid] at hitem
        exact absurd hitem hnone

/-- Every step keeps the store consistent. -/
theorem Consistent.step {l : Label α} (hcb : cb.Faithful content) (hc : Consistent content s)
    (h : Spillable.step cb l s = some s') : Consistent content s' := by
  cases l with
  | insert m =>
      cases h
      exact hc.insert m
  | extract i mid => exact hc.step_extract h
  | extractItem i => exact hc.step_extract_item h
  | copy i mid t => exact hc.step_copy h
  | copyLock i => exact hc.step_copy_lock h
  | copyItem i throws => exact hc.step_copy_item h
  | spill i mid => exact hc.step_spill h
  | spillTryLock i => exact hc.step_spill_try_lock h
  | spillItem i outcome => exact Consistent.step_spill_item hcb hc h
  | spillUpdate i => exact hc.step_spill_update h
  | clear =>
      cases h
      exact hc.clear

theorem Consistent.initial (n : Nat) : Consistent content (State.initial n : State α) where
  keys _ := rfl
  fresh _ _ := ⟨rfl, rfl, nofun⟩
  threads i th hi := by
    rw [List.eq_of_mem_replicate (List.mem_of_getElem? hi)]
    trivial
  unique i j mid hi _ := by
    have heq := List.eq_of_mem_replicate (List.mem_of_getElem? hi)
    cases heq
  cells _ hmid := absurd hmid (Nat.not_lt_zero _)
  live := nofun
  nodup := List.nodup_nil
  bounded := nofun
  stored := nofun
  returned := nofun
  described := nofun

theorem reachable_consistent (hcb : cb.Faithful content) (hs : (system cb).Reachable s) :
    Consistent content s := by
  refine hs.invariant ?_ ?_
  · rintro s ⟨n, rfl⟩
    exact .initial n
  · intro s l s' hc hstep
    exact hc.step hcb hstep

/-- A spill of the id is in progress. -/
def Thread.Spills (mid : Nat) : Thread α → Prop
  | .spilling k => k = mid
  | .spillLocked k _ => k = mid
  | .spilled k _ _ => k = mid
  | _ => False

/-- In every reachable state the two maps have the same keys; an id is extracted at most once,
and with the content that was inserted unless a throwing move callback has lost it; `extract`
finds the message of the id it removed; a message that is being copied was not extracted; and
without a spill of an id in progress its description is that of its message. -/
theorem linear (hcb : cb.Faithful content) (hs : (system cb).Reachable s) :
    (∀ mid, s.items mid = (s.contentDescriptions mid).isSome) ∧
      (s.extracted.map Prod.fst).Nodup ∧
      (∀ x ∈ s.extracted,
        (x.1 ∉ s.lost → ∃ m₀, s.inserted x.1 = some m₀ ∧
          x.2.payload.map content = m₀.payload.map content) ∧
        (x.1 ∈ s.lost → x.2.payload = none)) ∧
      (∀ i mid : Nat, s.threads[i]? = some (.extracting mid) → s.cells mid ≠ none) ∧
      (∀ (i mid : Nat) (t : MemoryType) (m : Message α),
        s.threads[i]? = some (.copyLocked mid t m) →
        s.cells mid = some m ∧ mid ∉ s.extracted.map Prod.fst) ∧
      ∀ (mid : Nat) (m : Message α), s.items mid = true → s.cells mid = some m →
        (∀ th ∈ s.threads, ¬ th.Spills mid) →
        s.contentDescriptions mid = some m.contentDescription := by
  have hc := reachable_consistent hcb hs
  refine ⟨hc.keys, hc.nodup, fun x hx => ?_, fun i mid hi => (hc.threads i _ hi).2.2,
    fun i mid t m hi => ?_, fun mid m hitem hm hquiet => ?_⟩
  · have hgenuine := hc.returned x hx
    rw [Genuine] at hgenuine
    refine ⟨fun hkept => ?_, fun hlost => ?_⟩
    · rw [if_neg hkept] at hgenuine
      exact hgenuine
    · rw [if_pos hlost] at hgenuine
      exact hgenuine
  · obtain ⟨hmid, -, hcell⟩ := hc.threads i _ hi
    refine ⟨hcell, fun hmem => ?_⟩
    rw [← hc.cells mid hmid, hcell] at hmem
    cases hmem
  · rcases hc.described mid m hitem hm with hsame | ⟨i, old, hi⟩
    · exact hsame
    · exact absurd rfl (hquiet _ (List.mem_of_getElem? hi))

end Invariant

/-- Four bytes on the device. -/
def deviceMessage : Message Nat :=
  ⟨some 7, ⟨fun t => if t = .device then 4 else 0, true⟩, true, true⟩

/-- Callbacks that put all four bytes into the memory of the reservation. -/
def fourBytes : Callbacks Nat where
  copy t m := { m with contentDescription := ⟨fun t' => if t' = t then 4 else 0, true⟩ }
  move t m := { m with contentDescription := ⟨fun t' => if t' = t then 4 else 0, true⟩ }

theorem four_bytes_faithful : fourBytes.Faithful (id : Nat → Nat) where
  copy_content _ _ := rfl
  move_content _ _ := rfl
  move_device _ _ ht := if_neg (Ne.symm ht)

/-- After a spill to host memory the message is extracted with its content. -/
theorem linear_spilled :
    ∃ s, (system fourBytes).Reachable s ∧
      s.extracted.map (fun x => (x.1, x.2.payload)) = [(0, some 7)] ∧
      (s.extracted.map Prod.fst).Nodup := by
  have hinit : (system fourBytes).Reachable (.initial 1) := .init ⟨1, rfl⟩
  have hrun : ∃ s, [Label.insert deviceMessage, .spill 0 0, .spillTryLock 0,
      .spillItem 0 (.moves .host), .spillUpdate 0, .extract 0 0, .extractItem 0].foldlM
      (fun s l => step fourBytes l s) (.initial 1) = some s ∧
      s.extracted.map (fun x => (x.1, x.2.payload)) = [(0, some 7)] :=
    ⟨_, rfl, rfl⟩
  obtain ⟨s, hrun, hextracted⟩ := hrun
  have hreach := hinit.exec (fun l _ s₁ s₂ h => ⟨trivial, h⟩) hrun
  exact ⟨s, hreach, hextracted, (linear four_bytes_faithful hreach).2.1⟩

/-- A spill whose move callback throws loses the payload: an empty message is extracted. -/
theorem payload_lost :
    ∃ s, (system fourBytes).Reachable s ∧
      (s.inserted 0).map (·.payload) = some (some 7) ∧
      s.extracted.map (fun x => (x.1, x.2.payload)) = [(0, none)] := by
  have hinit : (system fourBytes).Reachable (.initial 1) := .init ⟨1, rfl⟩
  have hrun : ∃ s, [Label.insert deviceMessage, .spill 0 0, .spillTryLock 0,
      .spillItem 0 .moveThrows, .extract 0 0, .extractItem 0].foldlM
      (fun s l => step fourBytes l s) (.initial 1) = some s ∧
      (s.inserted 0).map (·.payload) = some (some 7) ∧
      s.extracted.map (fun x => (x.1, x.2.payload)) = [(0, none)] := ⟨_, rfl, rfl, rfl⟩
  obtain ⟨s, hrun, hinserted, hextracted⟩ := hrun
  exact ⟨s, hinit.exec (fun l _ s₁ s₂ h => ⟨trivial, h⟩) hrun, hinserted, hextracted⟩

end Rapidsmpf.Streaming.Spillable
