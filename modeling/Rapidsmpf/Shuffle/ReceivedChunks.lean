import Mathlib
import Rapidsmpf.Memory.Spill
import Rapidsmpf.Shuffle.Chunk
import Rapidsmpf.Coll.PostBox

/-!
# Spilling the received chunks of a shuffle

`ReceivedChunks::spill` in `shuffler/postbox.cpp`: the partitions in the order in which the map is
iterated, the chunks of each in order, until enough is spilled. `spill_keeps_iff` says for this box
and for `PostBox` when an exception leaves all data in place.
-/

namespace Rapidsmpf.Shuffle

open Memory

namespace Chunk

/-- `set_data_buffer`. -/
def setDataBuffer (b : Buffer) (c : Chunk) : Except String Chunk :=
  if c.data.isSome then throw "buffer is already set" else pure { c with data := some b }

/-- The buffer that is to be spilled: there is data, on the device. -/
def spillable (c : Chunk) : Option Buffer :=
  if c.dataSize = 0 then none else c.data.filter fun b => b.memType = .device

/-- The reservation, `release_data_buffer`, `move` and `set_data_buffer`. -/
def spill (a : Attempt) (b : Buffer) (c : Chunk) : Chunk × Except SpillFailure Unit :=
  match a.reserveOrFail with
  | .error e => (c, .error e)
  | .ok t =>
      match a.move b t with
      | .error e => ({ c with data := none }, .error e)
      | .ok b =>
          match setDataBuffer b { c with data := none } with
          | .error e => ({ c with data := none }, .error (.check e))
          | .ok c => (c, .ok ())

/-- The chunk is untouched, or moved with all its data. -/
structure Intact (c c' : Chunk) : Prop where
  fields : c' = { c with data := c'.data }
  data : Kept c.data c'.data

theorem Intact.refl (c : Chunk) : c.Intact c := ⟨rfl, .untouched⟩

theorem spillable_eq_some {c : Chunk} {b : Buffer} (h : c.spillable = some b) :
    c.data = some b ∧ b.memType = .device := by
  unfold spillable at h
  split at h
  · cases h
  · simpa [Option.filter_eq_some_iff] using h

/-- What a spill does to a chunk that has data on the device. -/
theorem spill_effect {c : Chunk} {b : Buffer} (h : c.spillable = some b) (a : Attempt) :
    ∃ d r, c.spill a b = ({ c with data := d }, r) ∧ a.Effect b d r := by
  obtain ⟨hb, hdevice⟩ := spillable_eq_some h
  cases hreserved : a.reserved with
  | none =>
      refine ⟨some b, .error .reserve, ?_, .refused hreserved⟩
      rw [← hb, spill, Attempt.reserveOrFail, hreserved]
      rfl
  | some t =>
      have hne : t.1 ≠ b.memType := hdevice ▸ Attempt.target_ne_device t
      cases hallocates : a.allocates with
      | false =>
          refine ⟨none, .error .allocate, ?_, .lost (by rw [hreserved]; rfl) hallocates⟩
          simp [spill, Attempt.reserveOrFail, hreserved, Attempt.move, hne, hallocates, pure,
            Except.pure, throw, throwThe, MonadExceptOf.throw]
      | true =>
          refine ⟨some { b with memType := t.1 }, .ok (), ?_, .moved t hreserved hallocates⟩
          simp [spill, Attempt.reserveOrFail, hreserved, Attempt.move, hne, hallocates,
            setDataBuffer, pure, Except.pure]

end Chunk

/-- `ReceivedChunks`: the chunks of each partition, in the order in which `pigeonhole_` is
iterated. -/
abbrev ReceivedChunks := List (PartID × List Chunk)

/-- How far a spill has come: the attempts made, and `total_spilled`. -/
structure Progress where
  attempts : Nat
  total : UInt64

/-- The loop over the chunks of a partition. -/
def spillChunks (env : Nat → Attempt) (amount : UInt64) :
    List Chunk → Progress → List Chunk × Except SpillFailure Progress
  | [], p => ([], .ok p)
  | c :: cs, p =>
      match c.spillable with
      | none =>
          let (cs, r) := spillChunks env amount cs p
          (c :: cs, r)
      | some b =>
          match c.spill (env p.attempts) b with
          | (c, .error e) => (c :: cs, .error e)
          | (c, .ok ()) =>
              let p := ⟨p.attempts + 1, p.total + .ofNat c.dataSize⟩
              if amount ≤ p.total then (c :: cs, .ok p)
              else
                let (cs, r) := spillChunks env amount cs p
                (c :: cs, r)

namespace ReceivedChunks

/-- The loop over the partitions. -/
def spillLoop (env : Nat → Attempt) (amount : UInt64) :
    ReceivedChunks → Progress → ReceivedChunks × Except SpillFailure Progress
  | [], p => ([], .ok p)
  | (pid, cs) :: rest, p =>
      match spillChunks env amount cs p with
      | (cs, .error e) => ((pid, cs) :: rest, .error e)
      | (cs, .ok p) =>
          if amount ≤ p.total then ((pid, cs) :: rest, .ok p)
          else
            let (rest, r) := spillLoop env amount rest p
            ((pid, cs) :: rest, r)

/-- `spill`: the box afterwards, and the bytes spilled unless an exception is thrown. -/
def spill (env : Nat → Attempt) (amount : UInt64) (received : ReceivedChunks) :
    ReceivedChunks × Except SpillFailure UInt64 :=
  let (received, r) := spillLoop env amount received ⟨0, 0⟩
  (received, r.map Progress.total)

/-- Every chunk is in its place with all its data. -/
def Intact (received received' : ReceivedChunks) : Prop :=
  List.Forall₂ (fun p p' => p.1 = p'.1 ∧ List.Forall₂ Chunk.Intact p.2 p'.2) received received'

end ReceivedChunks

/-! ## A failing spill -/

section Outcome

variable {env : Nat → Attempt} {amount : UInt64} {p : Progress}

/-- What the data is like when a part of the spill ends: in place when it returns, and after an
exception exactly if the first attempt that fails does so in the reservation. -/
def Outcome (env : Nat → Attempt) (intact : Prop) : Except SpillFailure Progress → Prop
  | .ok p => intact ∧ ∀ j < p.attempts, (env j).Succeeds
  | .error _ => intact ↔ FailsReserving env

theorem Outcome.congr {intact intact' : Prop} {r : Except SpillFailure Progress}
    (h : Outcome env intact r) (hiff : intact' ↔ intact) : Outcome env intact' r := by
  cases r with
  | ok p => exact ⟨hiff.mpr h.1, h.2⟩
  | error e => exact hiff.trans h

theorem intact_refl (cs : List Chunk) : List.Forall₂ Chunk.Intact cs cs :=
  List.forall₂_same.mpr fun c _ => .refl c

/-- The chunks of one partition. A chunk that is not spilled stays, the one that is spilled is moved
or fails. -/
theorem spill_chunks_outcome (amount : UInt64) (cs : List Chunk)
    (hbefore : ∀ j < p.attempts, (env j).Succeeds) :
    Outcome env (List.Forall₂ Chunk.Intact cs (spillChunks env amount cs p).1)
      (spillChunks env amount cs p).2 := by
  induction cs generalizing p with
  | nil => exact ⟨.nil, hbefore⟩
  | cons c cs ih =>
      unfold spillChunks
      cases hspillable : c.spillable with
      | none =>
          refine (ih hbefore).congr ?_
          rw [List.forall₂_cons]
          exact and_iff_right (.refl c)
      | some b =>
          obtain ⟨hb, hdevice⟩ := Chunk.spillable_eq_some hspillable
          obtain ⟨d, r, hspill, heffect⟩ := Chunk.spill_effect hspillable (env p.attempts)
          simp only [hspill]
          cases r with
          | error e =>
              show List.Forall₂ Chunk.Intact (c :: cs) ({ c with data := d } :: cs) ↔ _
              rw [← heffect.kept_iff hbefore, ← hb, List.forall₂_cons]
              exact ⟨fun h => h.1.data, fun h => ⟨⟨rfl, h⟩, intact_refl cs⟩⟩
          | ok u =>
              have hintact : c.Intact { c with data := d } := by
                refine ⟨rfl, ?_⟩
                cases heffect with
                | moved t _ _ => exact .moved b t.1 hb hdevice t.2
              have hafter : ∀ j < p.attempts + 1, (env j).Succeeds := by
                intro j hj
                rcases Nat.lt_succ_iff_lt_or_eq.mp hj with hlt | rfl
                · exact hbefore j hlt
                · exact heffect.succeeds
              show Outcome env (List.Forall₂ Chunk.Intact (c :: cs) (if _ then _ else _ : _ × _).1)
                (if _ then _ else _ : _ × _).2
              split
              · exact ⟨.cons hintact (intact_refl cs), hafter⟩
              · refine (ih (p := ⟨p.attempts + 1, _⟩) hafter).congr ?_
                rw [List.forall₂_cons]
                exact and_iff_right hintact

namespace ReceivedChunks

theorem Intact.refl (received : ReceivedChunks) : received.Intact received :=
  List.forall₂_same.mpr fun p _ => ⟨rfl, intact_refl p.2⟩

theorem spill_loop_outcome (amount : UInt64) (received : ReceivedChunks)
    (hbefore : ∀ j < p.attempts, (env j).Succeeds) :
    Outcome env (received.Intact (received.spillLoop env amount p).1)
      (received.spillLoop env amount p).2 := by
  induction received generalizing p with
  | nil => exact ⟨.nil, hbefore⟩
  | cons partition rest ih =>
      obtain ⟨pid, cs⟩ := partition
      have hchunks := spill_chunks_outcome amount cs hbefore
      unfold spillLoop
      cases hrun : spillChunks env amount cs p with
      | mk cs' r =>
          rw [hrun] at hchunks
          cases r with
          | error e =>
              refine hchunks.congr ?_
              show List.Forall₂ _ ((pid, cs) :: rest) ((pid, cs') :: rest) ↔ _
              rw [List.forall₂_cons]
              exact ⟨fun h => h.1.2, fun h => ⟨⟨rfl, h⟩, Intact.refl rest⟩⟩
          | ok p' =>
              obtain ⟨hintact, hafter⟩ := hchunks
              simp only
              split
              · exact ⟨.cons ⟨rfl, hintact⟩ (Intact.refl rest), hafter⟩
              · refine (ih hafter).congr ?_
                show List.Forall₂ _ ((pid, cs) :: rest) ((pid, cs') :: _) ↔ _
                rw [List.forall₂_cons]
                exact and_iff_right ⟨rfl, hintact⟩

theorem spill_fails {received received' : ReceivedChunks} {e : SpillFailure}
    (h : received.spill env amount = (received', .error e)) :
    received.Intact received' ↔ FailsReserving env := by
  have hbefore : ∀ j < (⟨0, 0⟩ : Progress).attempts, (env j).Succeeds :=
    fun j hj => absurd hj (Nat.not_lt_zero j)
  have houtcome := spill_loop_outcome amount received hbefore
  obtain ⟨rfl, he⟩ := Prod.mk.inj h
  show received.Intact (received.spillLoop env amount ⟨0, 0⟩).1 ↔ _
  cases hr : (received.spillLoop env amount ⟨0, 0⟩).2 with
  | ok p => simp [hr, Except.map] at he
  | error e' => rwa [hr] at houtcome

end ReceivedChunks

end Outcome

/-- An exception that ends a spill, of a post box or of the received chunks of a shuffle, leaves all
chunks with their data exactly if the first attempt that fails does so in the reservation. -/
theorem spill_keeps_iff (env : Nat → Attempt) (amount : UInt64) (e : SpillFailure) :
    (∀ (sort : Coll.Sorting) (box : Coll.PostBox) (s : Coll.Spilling box.length),
      box.spill sort env amount = (s, .error e) →
        ((∀ i, (box.chunk i).Intact (s.chunk i)) ↔ FailsReserving env)) ∧
    ∀ received received' : ReceivedChunks, received.spill env amount = (received', .error e) →
      (received.Intact received' ↔ FailsReserving env) :=
  ⟨fun _ _ _ h => Coll.PostBox.spill_fails h, fun _ _ h => ReceivedChunks.spill_fails h⟩

/-- A spill that gets no reservation leaves the data. -/
theorem refused_spill_keeps :
    ∃ s, Coll.PostBox.oneDevice.spill Coll.PostBox.insertionSorting (fun _ => ⟨none, true⟩) 1
        = (s, .error .reserve) ∧
      ∀ i, (Coll.PostBox.oneDevice.chunk i).Intact (s.chunk i) := by
  refine ⟨_, rfl, ?_⟩
  exact ((spill_keeps_iff (fun _ => ⟨none, true⟩) 1 .reserve).1 _ _ _ rfl).mpr
    ⟨0, fun j hj => absurd hj (Nat.not_lt_zero j), rfl⟩

/-- A spill that gets a reservation and no memory loses the data. -/
theorem spill_loses :
    (∃ s i, Coll.PostBox.oneDevice.spill Coll.PostBox.insertionSorting
        (fun _ => Coll.PostBox.pinned false) 1 = (s, .error .allocate) ∧
      (Coll.PostBox.oneDevice.chunk i).data = some (.singleton .device 7) ∧
      (s.chunk i).data = none) ∧
    ReceivedChunks.spill (fun _ => Coll.PostBox.pinned false) 1
        [(0, [.fromPackedData 0 0 ⟨[], .singleton .device 7⟩])]
      = ([(0, [{ Chunk.fromPackedData 0 0 ⟨[], .singleton .device 7⟩ with data := none }])],
        .error .allocate) :=
  ⟨⟨_, ⟨0, Nat.zero_lt_two⟩, rfl, rfl, rfl⟩, rfl⟩

end Rapidsmpf.Shuffle
