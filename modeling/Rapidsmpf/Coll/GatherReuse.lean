import Rapidsmpf.Coll.Gathered

/-!
# AllGathers on one `op_id`

`Separate` says what the AllGathers of a rank take from the channels of its predecessor: every
receive gets a message of its own AllGather, and when the metadata loop has stopped for one, all
that belongs to it has come and nothing is still to come. `reuses` is the result, for chains of any
length.
-/

namespace Rapidsmpf.AllGather

open Protocol Coll Circular Fallible

variable {n r q e : Nat} {h : Nat → List (Nat × Msg)} {s : Ranks}

/-- The metadata loop of a rank has stopped for an AllGather. -/
def Stopped (s : Ranks) (e r : Nat) : Prop :=
  e < s.number r ∨ e = s.number r ∧ needsMore (s.members r) = false

/-- A rank has left an AllGather, or `event_loop` has returned `Done`. -/
def Finished (s : Ranks) (e r : Nat) : Prop :=
  e < s.number r ∨ e = s.number r ∧ (s.members r).canExtract = true

/-- What an AllGather consumes when its metadata loop has stopped: all messages of it that the
predecessor has sent, which are those of the other ranks, one finish message of each. -/
structure Consumed (n : Nat) (s : Ranks) (e r : Nat) (msgs : List Msg) : Prop where
  sent : Sent s (pred n r, r) e msgs
  taken : (s.comm.metadata (pred n r, r)).taken.count e = msgs.length
  finishes : msgs.countP Msg.isFinish = n - 1
  all : msgs.Perm (union (produced s e) (others n r))
  finished : ∀ q < n, q ≠ r → finishedIn s e q = true

/-- The AllGathers of a rank take no message of one another, and each takes all of its own. -/
structure Separate (n : Nat) (s : Ranks) (r : Nat) : Prop where
  metadata : (s.comm.metadata (pred n r, r)).Aligned
  payload : (s.comm.payload (pred n r, r)).Aligned
  consumed : ∀ e, Stopped s e r → ∃ msgs, Consumed n s e r msgs
  posted : ∀ e, Finished s e r → (s.comm.payload (pred n r, r)).taken.count e =
    ((s.comm.payload (pred n r, r)).sent.filter fun x => x.1 = e).length

/-! ## Counting stamps -/

theorem count_map_fst {α : Type} (l : List (Nat × α)) (e : Nat) :
    (l.map Prod.fst).count e = (l.filter fun x => x.1 = e).length := by
  rw [List.count, List.countP_map, List.countP_eq_length_filter]
  congr 2

theorem length_of_number (e : Nat) (l : List (Nat × Msg)) :
    (ofNumber e l).length = (l.map Prod.fst).count e := by
  rw [ofNumber, List.length_map, count_map_fst]

/-- Stamps of receives that are those of the first messages. -/
theorem aligned_of_append {α : Type} {c : Channel Nat α} {front back : List Nat}
    (hsent : c.sent.map Prod.fst = front ++ back) (htaken : c.taken = front) : c.Aligned := by
  intro i x t hx ht
  have hstamp : (front ++ back)[i]? = some x.1 := by
    rw [← hsent, List.getElem?_map, hx]
    rfl
  rw [htaken] at ht
  obtain ⟨hlt, -⟩ := List.getElem?_eq_some_iff.mp ht
  rw [List.getElem?_append_left hlt, ht] at hstamp
  exact (Option.some.inj hstamp).symm

/-! ## The channels of a rank -/

section Links

variable {ins : List Insertion} {fin : Bool} {got rest out : List (Nat × Msg)} {d : Desk}

theorem Feed.metadata_stamps {c : Comm} {link : Rank × Rank} {l : List (Nat × Msg)}
    (hfeed : Feed c link l) : (c.metadata link).sent.map Prod.fst = l.map Prod.fst := by
  rw [hfeed.metadata, List.map_map]
  rfl

theorem Feed.payload_stamps {c : Comm} {link : Rank × Rank} {l : List (Nat × Msg)}
    (hfeed : Feed c link l) :
    (c.payload link).sent.map Prod.fst = (itemsOf l).map Prod.fst := by
  have hstamps := congrArg (List.map Prod.fst) hfeed.payload
  rw [List.map_map, List.map_map] at hstamps
  exact hstamps

theorem Links.metadata_aligned (hl : Links n r e got rest out d (s.members r, s.comm)) :
    (s.comm.metadata (pred n r, r)).Aligned := by
  have hsent : (s.comm.metadata (pred n r, r)).sent.map Prod.fst =
      got.map Prod.fst ++ rest.map Prod.fst := by
    rw [hl.incoming.metadata_stamps, List.map_append]
  exact aligned_of_append hsent hl.metadata_taken

theorem Links.payload_aligned (hl : Links n r e got rest out d (s.members r, s.comm)) :
    (s.comm.payload (pred n r, r)).Aligned := by
  obtain ⟨front, hfront, htaken⟩ := hl.payload_taken
  have hsent : (s.comm.payload (pred n r, r)).sent.map Prod.fst = front.map Prod.fst ++
      ((d.waiting.map fun item => (e, item)) ++ itemsOf rest).map Prod.fst := by
    rw [hl.incoming.payload_stamps, items_of_append, hfront, List.append_assoc, List.map_append]
  exact aligned_of_append hsent htaken

/-- Nothing of an AllGather is left on the channel: all receives for it are posted. -/
theorem Links.taken_eq (hl : Links n r e got rest out d (s.members r, s.comm)) {e' : Nat}
    (hrest : ofNumber e' rest = []) :
    (s.comm.metadata (pred n r, r)).taken.count e' = (ofNumber e' (got ++ rest)).length := by
  rw [of_number_append, hrest, List.append_nil, length_of_number, hl.metadata_taken]

theorem Links.payload_taken_eq (hl : Links n r e got rest out d (s.members r, s.comm)) {e' : Nat}
    (hrest : ofNumber e' rest = []) (hwaiting : e' < e ∨ d.waiting = []) :
    (s.comm.payload (pred n r, r)).taken.count e' =
      ((s.comm.payload (pred n r, r)).sent.filter fun x => x.1 = e').length := by
  obtain ⟨front, hfront, htaken⟩ := hl.payload_taken
  have hitems : ((itemsOf rest).map Prod.fst).count e' = 0 := by
    rw [count_map_fst, ← List.length_map (f := fun x : Nat × Item => x.2), items_of_number, hrest]
    rfl
  have hlater : ((d.waiting.map fun item => (e, item)).map Prod.fst).count e' = 0 := by
    rcases hwaiting with hlt | hnone
    · rw [List.count_eq_zero, List.map_map]
      intro hmem
      obtain ⟨item, -, heq⟩ := List.mem_map.mp hmem
      exact absurd heq (Nat.ne_of_gt hlt)
    · rw [hnone]
      rfl
  rw [← count_map_fst, hl.incoming.payload_stamps, items_of_append, hfront, List.map_append,
    List.map_append, List.count_append, List.count_append, hitems, hlater, htaken, Nat.add_zero]

end Links

/-! ## All ranks -/

theorem Agrees.separate (hn : 1 < n) (hle : n ≤ 2 ^ 26) (hvalid : ValidInsertions n s)
    (ha : Agrees n h s) (hr : r < n) : Separate n s r := by
  obtain ⟨got, rest, d, hfeed, hstation⟩ := ha.station r hr
  have hl := hstation.links
  have hearlier : ∀ e < s.number r, ofNumber e rest = [] := fun e he =>
    of_number_eq_nil fun x hx => Nat.ne_of_gt (Nat.lt_of_lt_of_le he (hl.rest_le x hx))
  have hincoming : Feed s.comm (pred n r, r) (h (pred n r)) := by
    rw [← hfeed]
    exact hl.incoming
  -- all messages of the others have come, and they have finished
  have hall : ∀ e, Stopped s e r → (ofNumber e (h (pred n r))).Perm
      (union (produced s e) (others n r)) ∧ (∀ q ∈ others n r, finishedIn s e q = true) ∧
      ofNumber e rest = [] := by
    rintro e (hlt | ⟨rfl, hmore⟩)
    · have hleft := ha.left r hr e hlt
      exact ⟨hleft.received, fun q hq => hleft.finished q (mem_others.mp hq).1, hearlier e hlt⟩
    · have hclosed := hstation.holds.counted.needs_more_eq.mp hmore
      obtain ⟨hperm, hfinished, hrest⟩ :=
        ha.arrived_perm hn hle hvalid hr hfeed hstation hclosed
      rw [← hfeed, of_number_append, hrest, List.append_nil, ← hl.arrived]
      exact ⟨hperm, hfinished, rfl⟩
  refine ⟨hl.metadata_aligned, hl.payload_aligned, fun e hstopped => ?_, fun e hfinished => ?_⟩
  · obtain ⟨hperm, hfinished, hrest⟩ := hall e hstopped
    have hclosed := (hvalid.contributes hle e).union_closed
      (fun q hq => (mem_others.mp hq).1) hfinished
    refine ⟨ofNumber e (h (pred n r)), hincoming.sent e, ?_, ?_, hperm,
      fun q hq hne => hfinished q (mem_others.mpr ⟨hq, hne⟩)⟩
    · rw [hl.taken_eq hrest, hfeed]
    · have hothers := length_others hr
      rw [hperm.countP_eq, hclosed.1]
      omega
  · rcases hfinished with hlt | ⟨rfl, hcan⟩
    · exact hl.payload_taken_eq (hearlier e hlt) (.inl hlt)
    · have hdone := ha.done r hr hcan
      obtain ⟨-, hclosed⟩ := ha.done_closed hn hle hvalid hr hfeed hstation hdone
      obtain ⟨-, -, hrest⟩ := ha.arrived_perm hn hle hvalid hr hfeed hstation hclosed
      exact hl.payload_taken_eq hrest (.inr (hstation.holds.emptied hdone).2.1)

/-- In a chain of AllGathers on one `op_id`, of which a rank starts the next one when it is done,
every AllGather consumes exactly the messages of its own. -/
theorem reuses (hn : 2 ≤ n) (hle : n ≤ 2 ^ 26) (hs : (system n).Reachable s)
    (hvalid : ValidInsertions n s) (hr : r < n) : Separate n s r := by
  obtain ⟨h, ha⟩ := reachable_agrees hn hle hs hvalid
  exact ha.separate hn hle hvalid hr

/-- The rank 0 is in its second AllGather. -/
theorem reuses_second :
    ∃ s, (system 2).Reachable s ∧ s.number 0 = 1 ∧ s.number 1 = 0 ∧ Separate 2 s 0 := by
  obtain ⟨s, hrun, hzero, hone, hinsertions⟩ :
      ∃ s, run (step 2) (firstDone ++ [.start 0]) (.initial 2) = .ok s ∧
        s.number 0 = 1 ∧ s.number 1 = 0 ∧
        s.insertions = firstInsertions :=
    ⟨_, rfl, rfl, rfl, rfl⟩
  have hs : (system 2).Reachable s := run_reachable (.of_init rfl) (by decide) hrun
  exact ⟨s, hs, hzero, hone,
    reuses (by decide) (by decide) hs (valid_first hinsertions) (by decide)⟩

end Rapidsmpf.AllGather
