import Rapidsmpf.Coll.GatherChain
import Rapidsmpf.Coll.SparseSending

/-!
# All ranks of a SparseAlltoall

`Link` is the invariant of a source and a destination over chains of SparseAlltoalls, with both
sides at their own number, and `Local` that of a rank by itself. Every step keeps them
(`reachable_inv`), as long as for no destination so many insertions were made that their number does
not fit a chunk id.
-/

namespace Rapidsmpf.Coll.SparseAlltoall

open Protocol Fallible ListFacts
open AllGather (ofNumber itemsOf)

variable {n : Nat} {peers : Peers n} {p q r e : Nat} {s s' : Ranks} {h got rest : List (Nat × Msg)}
  {l : Label}

/-! ## What was put in -/

/-- The contributions of a list of insertions, with their ordinals. -/
def itemsFor (q : Rank) (ins : List Insertion) : List Item :=
  ins.zipIdx.map fun x => ⟨chunkId (x.2 % 2 ^ 64) q, x.1.metadata, x.1.payload⟩

/-- The messages for a list of insertions, and the finish message. -/
def messagesFor (q : Rank) (ins : List Insertion) (finished : Bool) : List Msg :=
  (itemsFor q ins).map Msg.data ++
    if finished then [.finish (chunkId ((ins.length + 1) % 2 ^ 64) q)] else []

/-- What was put in on the rank `q` for the rank `r`. -/
def produced (s : Ranks) (e q r : Nat) : List Msg :=
  messagesFor q (s.insertions e q r) (decide (r ∈ s.finished e q))

/-- For every destination fewer insertions than the largest number that fits a chunk id. -/
def ValidInsertions (s : Ranks) : Prop := ∀ e q r, (s.insertions e q r).length < 2 ^ 38 - 1

theorem items_for_append (q : Rank) (ins : List Insertion) (x : Insertion) :
    itemsFor q (ins ++ [x]) =
      itemsFor q ins ++ [⟨chunkId (ins.length % 2 ^ 64) q, x.metadata, x.payload⟩] := by
  simp [itemsFor, List.zipIdx_append]

theorem length_items_for (q : Rank) (ins : List Insertion) :
    (itemsFor q ins).length = ins.length := by
  simp [itemsFor]

theorem messages_for_append (q : Rank) (ins : List Insertion) (x : Insertion) :
    messagesFor q (ins ++ [x]) false = messagesFor q ins false ++
      [.data ⟨chunkId (ins.length % 2 ^ 64) q, x.metadata, x.payload⟩] := by
  simp [messagesFor, items_for_append]

theorem messages_for_finished (q : Rank) (ins : List Insertion) :
    messagesFor q ins true = messagesFor q ins false ++
      [.finish (chunkId ((ins.length + 1) % 2 ^ 64) q)] := by
  simp [messagesFor]

/-- Contributions tell no number. -/
theorem announced_data (l : List Item) : ((l.map Msg.data).map Msg.announced).sum = 0 := by
  rw [List.sum_eq_zero]
  intro k hk
  rw [List.map_map] at hk
  obtain ⟨item, -, rfl⟩ := List.mem_map.mp hk
  rfl

/-- All that was put in, with the finish message, tells its number. -/
theorem messages_for_closed (q : Rank) {ins : List Insertion} (hvalid : ins.length < 2 ^ 38 - 1) :
    Closed (messagesFor q ins true) := by
  have hlength : (messagesFor q ins true).length = ins.length + 1 := by
    simp [messagesFor, length_items_for]
  have hannounced : (Msg.finish (chunkId ((ins.length + 1) % 2 ^ 64) q)).announced =
      ins.length + 1 := by
    rw [Msg.announced, chunk_id_sequence_mod]
    omega
  refine ⟨by omega, by omega, ?_⟩
  rw [hlength, messagesFor, List.map_append, List.sum_append]
  rw [announced_data, if_pos rfl, List.map_singleton, List.sum_singleton, hannounced, Nat.zero_add]

/-! ## Invariants -/

/-- The chunks of calls of `insert` that have not put them in yet. -/
def Calls.chunks : Calls → List Chunk
  | .inserting chunks => chunks
  | _ => []

/-- What is not sent yet of a rank. -/
def unsent (s : Ranks) (q : Rank) : List Chunk := (s.calls q).chunks ++ (s.members q).outgoing

/-- The link from a rank `q` to a rank `r`: what was sent, `h`, of which `got` was received. -/
structure Link (peers : Peers n) (s : Ranks) (q r : Nat) (h got rest : List (Nat × Msg))
    (front : List (Nat × Item)) (complete pending waiting : List Item) : Prop where
  split : got ++ rest = h
  sending : Sending q r (s.number q) (produced s (s.number q) q r) (unsent s q) s.comm h
  receiving : Receiving q r (s.number r) ((s.members r).sourceStates q) (postedFor q (s.members r))
    s.comm got rest front complete pending waiting
  earlier : ∀ e < s.number q, (ofNumber e h).Perm (produced s e q r)
  left : ∀ e < s.number r, (ofNumber e h).Perm (produced s e q r) ∧
    (r ∈ peers.dsts e q → r ∈ s.finished e q)

/-- Two ranks are linked. -/
def Linked (peers : Peers n) (s : Ranks) (q r : Nat) : Prop :=
  ∃ h got rest front complete pending waiting,
    Link peers s q r h got rest front complete pending waiting

/-- The calls of the application of a rank agree with the finish messages that were put in. -/
def CallsAgree (dsts finished : List Rank) (locallyFinished : Bool) : Calls → Prop
  | .inserting _ => locallyFinished = false ∧ finished = []
  | .finishing left => locallyFinished = false ∧ left.Nodup ∧ (∀ d ∈ left, d ∉ finished) ∧
      ∀ d, d ∈ dsts ↔ d ∈ left ∨ d ∈ finished
  | .returned => locallyFinished = true ∧ ∀ d, d ∈ dsts ↔ d ∈ finished

/-- A rank by itself. -/
structure Local (peers : Peers n) (s : Ranks) (r : Rank) : Prop where
  srcs : (s.members r).srcs = peers.srcs (s.number r) r
  dsts : (s.members r).dsts = peers.dsts (s.number r) r
  ordinal : ∀ d, (s.members r).nextOrdinal d = (s.insertions (s.number r) r d).length % 2 ^ 64
  foreign : ∀ e, ∀ d ∉ peers.dsts e r, s.insertions e r d = [] ∧ d ∉ s.finished e r
  later : ∀ e, s.number r < e → (∀ d, s.insertions e r d = []) ∧ s.finished e r = []
  past : ∀ e < s.number r, ∀ d ∈ peers.dsts e r, d ∈ s.finished e r
  calls : CallsAgree (s.members r).dsts (s.finished (s.number r) r) (s.members r).locallyFinished
    (s.calls r)
  done : (s.members r).canExtract = true → isDone (s.members r) = true
  origins : Origins (s.members r)

/-- What every run keeps. -/
structure Inv (peers : Peers n) (s : Ranks) : Prop where
  locals : ∀ r < n, Local peers s r
  links : ∀ q < n, ∀ r < n, q ≠ r → Linked peers s q r

theorem Closed.perm {l l' : List Msg} (hperm : l.Perm l') (hclosed : Closed l') : Closed l :=
  ⟨hperm.length_eq ▸ hclosed.1, hperm.length_eq ▸ hclosed.2.1,
    (hperm.map Msg.announced).sum_eq.trans (hclosed.2.2.trans hperm.length_eq.symm)⟩

/-- A source sends no message of a later SparseAlltoall before it has sent all of this one. -/
theorem Link.supplied {front : List (Nat × Item)} {complete pending waiting : List Item}
    (hvalid : ValidInsertions s) (hq : Local peers s q)
    (hl : Link peers s q r h got rest front complete pending waiting)
    (hdst : r ∈ peers.dsts (s.number r) q) : Supplied (s.number r) h := by
  intro got x rest heq hle
  have hx : x ∈ h := heq ▸ List.mem_append_right _ List.mem_cons_self
  rcases Nat.eq_or_lt_of_le (hle x List.mem_cons_self) with hsame | hlater
  · exact .inl hsame.symm
  · refine .inr ?_
    have hpast : s.number r < s.number q := Nat.lt_of_lt_of_le hlater (hl.sending.stamp_le x hx)
    have hsorted := hl.sending.sorted
    rw [heq] at hsorted
    have hnone : ofNumber (s.number r) (x :: rest) = [] := by
      refine AllGather.of_number_eq_nil fun y hy => ?_
      rcases List.mem_cons.mp hy with rfl | hy
      · exact Nat.ne_of_gt hlater
      · have hxy := List.rel_of_pairwise_cons (List.pairwise_append.mp hsorted).2.1 hy
        exact Nat.ne_of_gt (Nat.lt_of_lt_of_le hlater hxy)
    have hperm := hl.earlier _ hpast
    rw [heq, AllGather.of_number_append, hnone, List.append_nil, produced,
      decide_eq_true (hq.past _ hpast r hdst)] at hperm
    exact (messages_for_closed q (hvalid _ _ _)).perm hperm

/-- Of a SparseAlltoall no more is sent than was put in. -/
theorem Link.subperm {front : List (Nat × Item)} {complete pending waiting : List Item}
    (hl : Link peers s q r h got rest front complete pending waiting) (e : Nat) :
    List.Subperm (ofNumber e h) (produced s e q r) := by
  rcases Nat.lt_trichotomy e (s.number q) with hlt | rfl | hgt
  · exact (hl.earlier e hlt).subperm
  · obtain ⟨msgs, -, hperm⟩ := hl.sending.unsent
    exact (List.sublist_append_right msgs _).subperm.trans hperm.subperm
  · rw [AllGather.of_number_eq_nil fun x hx =>
      Nat.ne_of_lt (Nat.lt_of_le_of_lt (hl.sending.stamp_le x hx) hgt)]
    exact List.nil_subperm

/-! ## Calls of the application -/

@[simp] theorem Ranks.members_put (r : Rank) (a : Endpoint) (calls : Calls) (s : Ranks) :
    (s.put r a calls).members r = a :=
  Function.update_self _ _ _

@[simp] theorem Ranks.calls_put (r : Rank) (a : Endpoint) (calls : Calls) (s : Ranks) :
    (s.put r a calls).calls r = calls :=
  Function.update_self _ _ _

/-- What a call of the application of the rank `p` leaves alone. -/
structure Applied (p : Rank) (s s' : Ranks) : Prop where
  number : s'.number = s.number
  comm : s'.comm = s.comm
  members : ∀ r ≠ p, s'.members r = s.members r
  calls : ∀ r ≠ p, s'.calls r = s.calls r
  insertions : ∀ e q, e ≠ s.number p ∨ q ≠ p → s'.insertions e q = s.insertions e q
  finished : ∀ e q, e ≠ s.number p ∨ q ≠ p → s'.finished e q = s.finished e q
  sourceStates : (s'.members p).sourceStates = (s.members p).sourceStates
  receivePosted : (s'.members p).receivePosted = (s.members p).receivePosted
  srcs : (s'.members p).srcs = (s.members p).srcs
  dsts : (s'.members p).dsts = (s.members p).dsts
  canExtract : (s'.members p).canExtract = (s.members p).canExtract

theorem Applied.produced_eq (ha : Applied p s s') {e q : Nat} (hne : e ≠ s.number p ∨ q ≠ p)
    (r : Nat) : produced s' e q r = produced s e q r := by
  rw [produced, produced, ha.insertions e q hne, ha.finished e q hne]

theorem Applied.source_states_eq (ha : Applied p s s') (r : Nat) :
    (s'.members r).sourceStates = (s.members r).sourceStates := by
  by_cases hr : r = p
  · rw [hr, ha.sourceStates]
  · rw [ha.members r hr]

theorem Applied.posted_for_eq (ha : Applied p s s') (r : Nat) :
    postedFor q (s'.members r) = postedFor q (s.members r) := by
  by_cases hr : r = p
  · rw [hr, postedFor, ha.receivePosted, postedFor]
  · rw [ha.members r hr]

/-- The members of a rank and what its application is at are stored. -/
theorem Applied.put {a : Endpoint} {calls : Calls}
    (hstates : a.sourceStates = (s.members p).sourceStates)
    (hposted : a.receivePosted = (s.members p).receivePosted) (hsrcs : a.srcs = (s.members p).srcs)
    (hdsts : a.dsts = (s.members p).dsts) (hcan : a.canExtract = (s.members p).canExtract) :
    Applied p s (s.put p a calls) := by
  refine ⟨rfl, rfl, fun r hr => Function.update_of_ne hr _ _,
    fun r hr => Function.update_of_ne hr _ _, fun _ _ _ => rfl, fun _ _ _ => rfl, ?_, ?_, ?_, ?_,
    ?_⟩
  all_goals rw [Ranks.members_put]; assumption

/-- The links of the other ranks. -/
theorem Linked.applied_other (ha : Applied p s s') (hq : q ≠ p) (hl : Linked peers s q r) :
    Linked peers s' q r := by
  obtain ⟨h, got, rest, front, complete, pending, waiting, hl⟩ := hl
  refine ⟨h, got, rest, front, complete, pending, waiting, hl.split, ?_, ?_, fun e he => ?_,
    fun e he => ?_⟩
  · rw [ha.number, ha.produced_eq (.inr hq), ha.comm, unsent, ha.calls q hq, ha.members q hq]
    exact hl.sending
  · rw [ha.number, ha.source_states_eq, ha.posted_for_eq, ha.comm]
    exact hl.receiving
  · rw [ha.number] at he
    rw [ha.produced_eq (.inr hq)]
    exact hl.earlier e he
  · rw [ha.number] at he
    rw [ha.produced_eq (.inr hq), ha.finished e q (.inr hq)]
    exact hl.left e he

/-- The links of the rank: what it puts in, if anything, is for a SparseAlltoall that the
destination has not left. -/
theorem Linked.applied (ha : Applied p s s') (hl : Linked peers s p r)
    (hsending : ∀ h, Sending p r (s.number p) (produced s (s.number p) p r) (unsent s p) s.comm h →
      Sending p r (s.number p) (produced s' (s.number p) p r) (unsent s' p) s.comm h)
    (hopen : produced s' (s.number p) p r = produced s (s.number p) p r ∧
        (r ∈ s.finished (s.number p) p → r ∈ s'.finished (s.number p) p) ∨
      ¬ (r ∈ peers.dsts (s.number p) p → r ∈ s.finished (s.number p) p)) :
    Linked peers s' p r := by
  obtain ⟨h, got, rest, front, complete, pending, waiting, hl⟩ := hl
  refine ⟨h, got, rest, front, complete, pending, waiting, hl.split, ?_, ?_, fun e he => ?_,
    fun e he => ?_⟩
  · rw [ha.number, ha.comm]
    exact hsending h hl.sending
  · rw [ha.number, ha.source_states_eq, ha.posted_for_eq, ha.comm]
    exact hl.receiving
  · rw [ha.number] at he
    rw [ha.produced_eq (.inl (Nat.ne_of_lt he))]
    exact hl.earlier e he
  · rw [ha.number] at he
    by_cases hself : e = s.number p
    · subst hself
      rcases hopen with ⟨hsame, hfinished⟩ | hopen
      · rw [hsame]
        exact ⟨(hl.left _ he).1, fun hr => hfinished ((hl.left _ he).2 hr)⟩
      · exact absurd (hl.left _ he).2 hopen
    · rw [ha.produced_eq (.inl hself), ha.finished e p (.inl hself)]
      exact hl.left e he

/-- The other ranks by themselves. -/
theorem Local.applied_other (ha : Applied p s s') (hr : r ≠ p) (hl : Local peers s r) :
    Local peers s' r := by
  have hinsertions : ∀ e, s'.insertions e r = s.insertions e r := fun e =>
    ha.insertions e r (.inr hr)
  have hfinished : ∀ e, s'.finished e r = s.finished e r := fun e => ha.finished e r (.inr hr)
  constructor
  · rw [ha.members r hr, ha.number]
    exact hl.srcs
  · rw [ha.members r hr, ha.number]
    exact hl.dsts
  · intro d
    rw [ha.members r hr, ha.number, hinsertions]
    exact hl.ordinal d
  · intro e d hd
    rw [hinsertions, hfinished]
    exact hl.foreign e d hd
  · intro e he
    rw [ha.number] at he
    rw [hinsertions, hfinished]
    exact hl.later e he
  · intro e he
    rw [ha.number] at he
    rw [hfinished]
    exact hl.past e he
  · rw [ha.members r hr, ha.number, hfinished, ha.calls r hr]
    exact hl.calls
  · rw [ha.members r hr]
    exact hl.done
  · rw [ha.members r hr]
    exact hl.origins

/-- An application that has not finished keeps its rank from being done. -/
theorem Local.not_done (hl : Local peers s r) (hopen : (s.members r).locallyFinished = false) :
    (s.members r).canExtract = false := by
  by_contra hcan
  have hdone := hl.done (by simpa using hcan)
  rw [isDone, hopen] at hdone
  cases hdone

/-- The rank by itself. -/
theorem Local.applied (ha : Applied p s s') (hl : Local peers s p)
    (hopen : (s.members p).locallyFinished = false)
    (hordinal : ∀ d, (s'.members p).nextOrdinal d =
      (s'.insertions (s.number p) p d).length % 2 ^ 64)
    (hforeign : ∀ d ∉ peers.dsts (s.number p) p,
      s'.insertions (s.number p) p d = [] ∧ d ∉ s'.finished (s.number p) p)
    (hcalls : CallsAgree (s.members p).dsts (s'.finished (s.number p) p)
      (s'.members p).locallyFinished (s'.calls p)) : Local peers s' p := by
  constructor
  · rw [ha.srcs, ha.number]
    exact hl.srcs
  · rw [ha.dsts, ha.number]
    exact hl.dsts
  · rw [ha.number]
    exact hordinal
  · intro e d hd
    by_cases he : e = s.number p
    · subst he
      exact hforeign d hd
    · rw [ha.insertions e p (.inl he), ha.finished e p (.inl he)]
      exact hl.foreign e d hd
  · intro e he
    rw [ha.number] at he
    have hne : e ≠ s.number p := Nat.ne_of_gt he
    rw [ha.insertions e p (.inl hne), ha.finished e p (.inl hne)]
    exact hl.later e he
  · intro e he
    rw [ha.number] at he
    rw [ha.finished e p (.inl (Nat.ne_of_lt he))]
    exact hl.past e he
  · rw [ha.dsts, ha.number]
    exact hcalls
  · intro hcan
    rw [ha.canExtract, hl.not_done hopen] at hcan
    cases hcan
  · refine ⟨fun src => ?_, ?_⟩
    · rw [ha.sourceStates]
      exact hl.origins.incoming src
    · rw [ha.receivePosted]
      exact hl.origins.posted

/-- A call of the application keeps what every run keeps, if it does so for its rank. -/
theorem Inv.applied (hi : Inv peers s) (ha : Applied p s s') (hlocal : Local peers s' p)
    (hlinks : ∀ r < n, p ≠ r → Linked peers s p r → Linked peers s' p r) : Inv peers s' where
  locals := fun r hr => by
    by_cases heq : r = p
    · rw [heq]
      exact hlocal
    · exact (hi.locals r hr).applied_other ha heq
  links := fun q hq r hr hne => by
    by_cases heq : q = p
    · subst heq
      exact hlinks r hr hne (hi.links q hq r hr hne)
    · exact (hi.links q hq r hr hne).applied_other ha heq

end Rapidsmpf.Coll.SparseAlltoall
