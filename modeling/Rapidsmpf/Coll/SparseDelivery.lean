import Rapidsmpf.Coll.GatherReuse
import Rapidsmpf.Coll.SparseProgress

/-!
# What a SparseAlltoall delivers

A rank whose `event_loop` has returned `Done` extracts what each of its sources inserted for it,
each contribution once and in the order of the insertions (`extracts`). The SparseAlltoalls of a
chain take no message of one another, and one that is done has taken all of its own
(`leaves_nothing`).
-/

namespace Rapidsmpf.Coll.SparseAlltoall

open Protocol Fallible ListFacts
open AllGather (ofNumber itemsOf)

variable {n : Nat} {peers : Peers n} {q r e : Nat} {s s' : Ranks} {h got rest : List (Nat × Msg)}
  {front : List (Nat × Item)} {complete pending waiting : List Item}

/-! ## The order of the insertions -/

/-- The sequence number of a contribution. -/
def sequenceOf (item : Item) : Nat := item.id &&& (1 <<< idBits - 1)

/-- What was inserted, as far as it is in a contribution. -/
def insertionOf (item : Item) : Insertion := ⟨item.metadata, item.payload⟩

theorem insertions_of_items (q : Rank) (ins : List Insertion) :
    (itemsFor q ins).map insertionOf = ins := by
  rw [itemsFor, List.map_map]
  exact (List.map_congr_left fun _ _ => rfl).trans (List.zipIdx_map_fst 0 ins)

/-- The sequence numbers of the contributions are the ordinals of the insertions. -/
theorem sequences_of_items (q : Rank) {ins : List Insertion} (hlt : ins.length < 2 ^ 38) :
    (itemsFor q ins).map sequenceOf = List.range ins.length := by
  rw [itemsFor, List.map_map, List.range_eq_range', ← List.zipIdx_map_snd 0 ins]
  refine List.map_congr_left fun x hx => ?_
  obtain ⟨-, hindex, -⟩ := List.mem_zipIdx hx
  have hsequence : sequenceOf ⟨chunkId (x.2 % 2 ^ 64) q, x.1.metadata, x.1.payload⟩ = x.2 := by
    rw [sequenceOf, chunk_id_sequence_mod]
    omega
  exact hsequence

/-- Contributions sorted by their sequence numbers are in the order of the insertions. -/
theorem sorted_items {items : List Item} {ins : List Insertion} (hlt : ins.length < 2 ^ 38)
    (hperm : items.Perm (itemsFor q ins))
    (hsorted : items.Pairwise fun x y => sequenceOf x ≤ sequenceOf y) : items = itemsFor q ins := by
  have hkeys := sequences_of_items q hlt
  have hnodup : ((itemsFor q ins).map sequenceOf).Nodup := by
    rw [hkeys]
    exact List.nodup_range
  have hordered : (itemsFor q ins).Pairwise fun x y => sequenceOf x ≤ sequenceOf y := by
    rw [← List.pairwise_map (f := sequenceOf) (R := (· ≤ ·)), hkeys]
    exact List.pairwise_le_range
  refine hperm.eq_of_pairwise (fun x y hx hy hxy hyx => ?_) hsorted hordered
  exact List.inj_on_of_nodup_map hnodup (hperm.subset hx) hy (Nat.le_antisymm hxy hyx)

theorem filter_map_item_messages (q : Rank) (ins : List Insertion) (finished : Bool) :
    (messagesFor q ins finished).filterMap Msg.item? = itemsFor q ins := by
  rw [messagesFor, List.filterMap_append, AllGather.filter_map_item_data]
  split
  · exact List.append_nil _
  · exact List.append_nil _

/-! ## Extraction -/

/-- What a rank `r` has from its source `q` when it may extract. -/
structure Extracted (s : Ranks) (q r : Rank) : Prop where
  data : ∃ data a, extract q (s.members r) = .ok (data, a) ∧
    data.map (fun d => ⟨d.metadata, d.data.bytes⟩) = s.insertions (s.number r) q r ∧
    extract q a = .ok ([], a)
  finished : r ∈ s.finished (s.number r) q

/-- The chunks of a source, all complete, are extracted. -/
theorem extract_eq {a : Endpoint} {data : List Shuffle.PackedData} (hsrc : q ∈ a.srcs)
    (hcan : a.canExtract = true)
    (hrelease : ((a.sourceStates q).chunks.mergeSort fun x y => x.sequence ≤ y.sequence).mapM
      release = .ok data) :
    extract q a = .ok (data, a.setSource q { a.sourceStates q with chunks := [] }) := by
  simp only [extract, if_neg (not_not.mpr hsrc), if_neg (not_not.mpr hcan), hrelease]
  rfl

/-- The chunks that are complete are extracted in the order of the insertions. -/
theorem extract_sorted {a : Endpoint} {ins : List Insertion} (hlt : ins.length < 2 ^ 38)
    (hsrc : q ∈ a.srcs) (hcan : a.canExtract = true)
    (hchunks : List.Forall₂ (fun chunk item => Chunk.Says chunk (.data item))
      (a.sourceStates q).chunks complete) (hperm : complete.Perm (itemsFor q ins)) :
    ∃ data a', extract q a = .ok (data, a') ∧
      data.map (fun d => (⟨d.metadata, d.data.bytes⟩ : Insertion)) = ins ∧
      extract q a' = .ok ([], a') := by
  obtain ⟨items, hitems, hcomplete⟩ := List.perm_comp_forall₂
    (List.mergeSort_perm (a.sourceStates q).chunks fun x y => x.sequence ≤ y.sequence) hchunks
  have hsequences : ((a.sourceStates q).chunks.mergeSort fun x y => x.sequence ≤ y.sequence).map
      Chunk.sequence = items.map sequenceOf := by
    refine List.forall₂_eq_eq_eq ▸ List.forall₂_map_left_iff.mpr (List.forall₂_map_right_iff.mpr ?_)
    exact hitems.imp fun chunk item hmsg => congrArg (· &&& (1 <<< idBits - 1)) hmsg.1
  have hsorted : items.Pairwise fun x y => sequenceOf x ≤ sequenceOf y := by
    rw [← List.pairwise_map (f := sequenceOf) (R := (· ≤ ·)), ← hsequences, List.pairwise_map]
    have htrans : ∀ x y z : Chunk, decide (x.sequence ≤ y.sequence) →
        decide (y.sequence ≤ z.sequence) → decide (x.sequence ≤ z.sequence) := by
      intro x y z hxy hyz
      simp only [decide_eq_true_eq] at hxy hyz ⊢
      exact Nat.le_trans hxy hyz
    have htotal : ∀ x y : Chunk,
        decide (x.sequence ≤ y.sequence) || decide (y.sequence ≤ x.sequence) := by
      intro x y
      simp only [Bool.or_eq_true, decide_eq_true_eq]
      exact Nat.le_total x.sequence y.sequence
    exact (List.pairwise_mergeSort htrans htotal (a.sourceStates q).chunks).imp fun hle => by
      simpa using hle
  obtain rfl := sorted_items hlt (hcomplete.trans hperm) hsorted
  obtain ⟨data, hdata, hmap⟩ := release_all hitems
  refine ⟨data, _, extract_eq hsrc hcan hdata, ?_, ?_⟩
  · have hinsertions := congrArg (List.map fun x : Bytes × Bytes => (⟨x.1, x.2⟩ : Insertion)) hmap
    rw [List.map_map, List.map_map] at hinsertions
    exact hinsertions.trans (insertions_of_items q ins)
  · have hnone : (((a.setSource q { a.sourceStates q with chunks := [] }).sourceStates
        q).chunks.mergeSort fun x y => x.sequence ≤ y.sequence).mapM release = .ok [] := by
      simp only [Endpoint.setSource, Function.update_self, List.mergeSort_nil]
      rfl
    rw [extract_eq (a := a.setSource q { a.sourceStates q with chunks := [] }) hsrc hcan hnone]
    simp [Endpoint.setSource]

/-- A rank that may extract gets from each source what that source inserted for it, each insertion
once and in the order of their ordinals, and nothing when it extracts again. -/
theorem extracts (hs : (system peers).Reachable s) (hvalid : ValidInsertions s) (hr : r < n)
    (hcan : (s.members r).canExtract = true) (hsrc : q ∈ peers.srcs (s.number r) r) :
    Extracted s q r := by
  have hi := reachable_inv hs hvalid
  obtain ⟨hq, hne⟩ := (peers.srcs_valid _ r hr).2 q hsrc
  have hlr := hi.locals r hr
  obtain ⟨h, got, rest, front, complete, pending, waiting, hl⟩ := hi.links q hq r hr hne
  have hconsistent := peers.consistent (s.number r) q hq r hr
  obtain ⟨-, hreceived, -, hfinished, rfl, rfl⟩ :=
    hl.done hvalid hlr (hi.locals q hq) hconsistent (hlr.done hcan)
  have hlt := hvalid (s.number r) q r
  have hperm : complete.Perm (itemsFor q (s.insertions (s.number r) q r)) := by
    have hitems := hl.receiving.items
    rw [List.append_nil, List.append_nil] at hitems
    rw [← filter_map_item_messages q _ (decide (r ∈ s.finished (s.number r) q))]
    exact hitems.trans (hreceived.filterMap _)
  exact ⟨extract_sorted (by omega) (hlr.srcs ▸ hsrc) hcan hl.receiving.chunks hperm,
    hfinished (hconsistent.mpr hsrc)⟩

/-- Two ranks, each the source and the destination of the other one. -/
def pair : Peers 2 where
  srcs := fun _ r => [1 - r]
  dsts := fun _ r => [1 - r]
  srcs_valid := fun _ => by decide
  dsts_valid := fun _ => by decide
  consistent := fun _ => by decide

/-- All is ready and has arrived. -/
def arrivedAll : Env where
  written := fun _ => true
  arrived := fun _ => 3
  memType := fun _ _ => .host
  allocated := fun _ _ => true
  received := [0, 0]
  sendsCompleted := 1

/-- The rank 0 makes two insertions at the same time, and the rank 1 receives them. -/
def crossed : List Label :=
  [.insert 0 1 ⟨[1], .singleton .host 7⟩ none, .insert 0 1 ⟨[2], .singleton .host 9⟩ none,
    .enqueue 0 1, .enqueue 0 0, .insertFinished 0, .finishNext 0, .finishEnd 0,
    .eventLoop 0 { arrivedAll with received := [] }, .insertFinished 1, .finishNext 1, .finishEnd 1,
    .eventLoop 1 arrivedAll]

theorem run_reachable {ls : List Label} (hs : (system peers).Reachable s)
    (hls : ∀ l ∈ ls, l.rank < n) (hrun : run (step peers) ls s = .ok s') :
    (system peers).Reachable s' :=
  System.Reach.run hs (fun l hl _ _ hstep => ⟨trivial, hls l hl, hstep⟩) hrun

/-- A run makes at most one insertion in a step. -/
theorem length_insertions_run {ls : List Label} (hrun : run (step peers) ls s = .ok s')
    (e q r : Nat) : (s'.insertions e q r).length ≤ (s.insertions e q r).length + ls.length := by
  induction ls generalizing s with
  | nil =>
      cases pure_eq_ok.mp hrun
      exact Nat.le_refl _
  | cons l ls ih =>
      rw [run, List.foldlM_cons] at hrun
      obtain ⟨s₁, hstep, hrest⟩ := bind_eq_ok.mp hrun
      obtain ⟨more, hmore, hone⟩ := step_insertions hstep e q r
      have hlater := ih hrest
      rw [hmore, List.length_append] at hlater
      rw [List.length_cons]
      omega

theorem ValidInsertions.of_run {ls : List Label}
    (hrun : run (step peers) ls (.initial peers) = .ok s) (hls : ls.length < 2 ^ 38 - 1) :
    ValidInsertions s := fun e q r =>
  Nat.lt_of_le_of_lt (length_insertions_run hrun e q r) (by simpa [Ranks.initial] using hls)

theorem extracts_crossed :
    ∃ s, (system pair).Reachable s ∧ Extracted s 0 1 ∧
      s.insertions 0 0 1 = [⟨[1], [7]⟩, ⟨[2], [9]⟩] := by
  obtain ⟨s, hrun, hcan, hinsertions⟩ : ∃ s, run (step pair) crossed (.initial pair) = .ok s ∧
      (s.members 1).canExtract = true ∧ s.insertions 0 0 1 = [⟨[1], [7]⟩, ⟨[2], [9]⟩] :=
    ⟨_, rfl, rfl, rfl⟩
  have hs : (system pair).Reachable s := run_reachable (.of_init rfl) (by decide) hrun
  exact ⟨s, hs, extracts hs (.of_run hrun (by decide)) (by decide) hcan (List.mem_singleton_self 0),
    hinsertions⟩

/-! ## SparseAlltoalls on one `op_id` -/

/-- A rank has left a SparseAlltoall, or `event_loop` has returned `Done` for it. -/
def Finished (s : Ranks) (e r : Nat) : Prop :=
  e < s.number r ∨ e = s.number r ∧ (s.members r).canExtract = true

/-- The messages of one SparseAlltoall on a link: those that were sent, and how many receives were
posted for metadata and for payloads. -/
structure Consumed (s : Ranks) (link : Rank × Rank) (e messages payloads : Nat) : Prop where
  metadata_sent : ((s.comm.metadata link).sent.filter fun x => x.1 = e).length = messages
  metadata_taken : (s.comm.metadata link).taken.count e = messages
  payload_sent : ((s.comm.payload link).sent.filter fun x => x.1 = e).length = payloads
  payload_taken : (s.comm.payload link).taken.count e = payloads

/-- The SparseAlltoalls of a chain on the link from the rank `q` to the rank `r`: a receive gets a
message of its own SparseAlltoall, a source that has finished one has sent all that it put in, and a
destination that has finished one has received all of it. -/
structure Separated (peers : Peers n) (s : Ranks) (q r : Rank) : Prop where
  metadata : (s.comm.metadata (q, r)).Aligned
  payload : (s.comm.payload (q, r)).Aligned
  sent : ∀ e, Finished s e q →
    (((s.comm.metadata (q, r)).sent.filter fun x => x.1 = e).map Prod.snd).Perm
      ((produced s e q r).map Msg.serialize)
  consumed : ∀ e, Finished s e r → Consumed s (q, r) e
    (if r ∈ peers.dsts e q then (s.insertions e q r).length + 1 else 0)
    ((s.insertions e q r).countP fun x => !x.payload.isEmpty)

/-- The payloads of one SparseAlltoall are those of its contributions. -/
theorem count_payloads (e : Nat) (l : List (Nat × Msg)) :
    ((payloadsOf l).map Prod.fst).count e =
      ((ofNumber e l).filterMap Msg.item?).countP hasPayload := by
  rw [AllGather.count_map_fst, ← AllGather.items_of_number, payloadsOf, List.filter_comm,
    List.countP_map, List.countP_eq_length_filter]
  rfl

theorem Feed.metadata_stamps {c : Comm} {link : Rank × Rank} (hfeed : Feed c link h) :
    (c.metadata link).sent.map Prod.fst = h.map Prod.fst := by
  rw [hfeed.metadata, List.map_map]
  rfl

theorem Feed.payload_stamps {c : Comm} {link : Rank × Rank} (hfeed : Feed c link h) :
    (c.payload link).sent.map Prod.fst = (payloadsOf h).map Prod.fst := by
  have hstamps := congrArg (List.map Prod.fst) hfeed.payload
  rw [List.map_map, List.map_map] at hstamps
  exact hstamps

/-- The metadata messages of one SparseAlltoall among those of a link. -/
theorem Feed.metadata_of_number {c : Comm} {link : Rank × Rank} (hfeed : Feed c link h) (e : Nat) :
    ((c.metadata link).sent.filter fun x => x.1 = e).map Prod.snd =
      (ofNumber e h).map Msg.serialize := by
  have hmap : ((c.metadata link).sent.map fun x => (x.1, x.2)) =
      h.map fun x => (x.1, x.2.serialize) := by
    rw [← hfeed.metadata]
    exact List.map_id _
  refine (AllGather.map_filter_key (f := id) hmap e).trans ?_
  rw [ofNumber, List.map_map]
  rfl

theorem count_items (q : Rank) (ins : List Insertion) :
    (itemsFor q ins).countP hasPayload = ins.countP fun x => !x.payload.isEmpty := by
  have hinsertions := insertions_of_items q ins
  have hcount := congrArg (List.countP fun x : Insertion => !x.payload.isEmpty) hinsertions
  rw [List.countP_map] at hcount
  exact hcount

/-- A rank that has finished a SparseAlltoall has received all that was put in for it. -/
theorem Inv.consumed (hvalid : ValidInsertions s) (hi : Inv peers s) (hq : q < n) (hr : r < n)
    (hl : Link peers s q r h got rest front complete pending waiting) (hfinished : Finished s e r) :
    (ofNumber e h).Perm (produced s e q r) ∧ ofNumber e rest = [] ∧
      (r ∈ peers.dsts e q → r ∈ s.finished e q) ∧
      ((front.map Prod.fst).count e = ((payloadsOf got).map Prod.fst).count e) := by
  rcases hfinished with hlt | ⟨rfl, hcan⟩
  · have hrest : ofNumber e rest = [] := AllGather.of_number_eq_nil fun x hx =>
      Nat.ne_of_gt (Nat.lt_of_lt_of_le hlt (hl.receiving.rest_le x hx))
    refine ⟨(hl.left e hlt).1, hrest, (hl.left e hlt).2, ?_⟩
    have hnone : (((waiting.filter hasPayload).map fun item => (s.number r, item)).map
        Prod.fst).count e = 0 := by
      rw [List.count_eq_zero, List.map_map]
      intro hmem
      obtain ⟨item, -, heq⟩ := List.mem_map.mp hmem
      exact absurd heq (Nat.ne_of_gt hlt)
    rw [hl.receiving.payloads, List.map_append, List.count_append, hnone, Nat.add_zero]
  · have hlr := hi.locals r hr
    obtain ⟨-, hreceived, hnone, hdst, -, rfl⟩ := hl.done hvalid hlr (hi.locals q hq)
      (peers.consistent _ q hq r hr) (hlr.done hcan)
    refine ⟨?_, hnone, hdst, ?_⟩
    · rw [← hl.split, AllGather.of_number_append, hnone, List.append_nil]
      exact hreceived
    · rw [hl.receiving.payloads]
      simp

/-- In a chain of SparseAlltoalls on one `op_id`, of which a rank starts the next one when it is
done, every one receives the messages of its own and leaves none of them behind. -/
theorem leaves_nothing (hs : (system peers).Reachable s) (hvalid : ValidInsertions s) (hq : q < n)
    (hr : r < n) (hne : q ≠ r) : Separated peers s q r := by
  have hi := reachable_inv hs hvalid
  obtain ⟨h, got, rest, front, complete, pending, waiting, hl⟩ := hi.links q hq r hr hne
  have hfeed := hl.sending.feed
  have hmetadata : (s.comm.metadata (q, r)).sent.map Prod.fst =
      got.map Prod.fst ++ rest.map Prod.fst := by
    rw [hfeed.metadata_stamps, ← hl.split, List.map_append]
  have hpayload : (s.comm.payload (q, r)).sent.map Prod.fst = front.map Prod.fst ++
      (((waiting.filter hasPayload).map fun item => (s.number r, item)) ++
        payloadsOf rest).map Prod.fst := by
    rw [hfeed.payload_stamps, ← hl.split, payloads_of_append, hl.receiving.payloads,
      List.append_assoc, List.map_append]
  refine ⟨AllGather.aligned_of_append hmetadata hl.receiving.metadata_taken,
    AllGather.aligned_of_append hpayload hl.receiving.payload_taken, fun e hfinished => ?_,
    fun e hfinished => ?_⟩
  · rw [hfeed.metadata_of_number]
    refine List.Perm.map _ ?_
    rcases hfinished with hlt | ⟨rfl, hcan⟩
    · exact hl.earlier e hlt
    · exact (hl.all_sent (hi.locals q hq) ((hi.locals q hq).done hcan)).2
  · obtain ⟨hall, hnone, hdst, hfront⟩ := hi.consumed hvalid hq hr hl hfinished
    have hgot : ofNumber e h = ofNumber e got := by
      rw [← hl.split, AllGather.of_number_append, hnone, List.append_nil]
    have hmessages : (ofNumber e h).length =
        if r ∈ peers.dsts e q then (s.insertions e q r).length + 1 else 0 := by
      rw [hall.length_eq, produced, messagesFor, List.length_append, List.length_map,
        length_items_for]
      by_cases hmem : r ∈ peers.dsts e q
      · simp [hmem, hdst hmem]
      · obtain ⟨hins, hopen⟩ := (hi.locals q hq).foreign e r hmem
        simp [hmem, hins, hopen]
    have hpayloads : ((ofNumber e h).filterMap Msg.item?).countP hasPayload =
        (s.insertions e q r).countP fun x => !x.payload.isEmpty := by
      rw [(hall.filterMap Msg.item?).countP_eq, produced, filter_map_item_messages, count_items]
    constructor
    · rw [← hmessages, ← AllGather.count_map_fst, hfeed.metadata_stamps,
        AllGather.length_of_number]
    · rw [← hmessages, hl.receiving.metadata_taken, hgot, AllGather.length_of_number]
    · rw [← hpayloads, ← AllGather.count_map_fst, hfeed.payload_stamps, count_payloads]
    · rw [← hpayloads, hl.receiving.payload_taken, hfront, count_payloads, hgot]

/-- The rank 1 goes on to its second SparseAlltoall, in which it receives nothing yet. -/
theorem leaves_nothing_crossed :
    ∃ s, (system pair).Reachable s ∧ s.number 1 = 1 ∧ Separated pair s 0 1 := by
  obtain ⟨s, hrun, hnumber⟩ : ∃ s,
      run (step pair) (crossed ++ [.start 1]) (.initial pair) = .ok s ∧ s.number 1 = 1 :=
    ⟨_, rfl, rfl⟩
  have hs : (system pair).Reachable s := run_reachable (.of_init rfl) (by decide) hrun
  exact ⟨s, hs, hnumber, leaves_nothing hs (.of_run hrun (by decide)) (by decide) (by decide)
    (by decide)⟩

end Rapidsmpf.Coll.SparseAlltoall
