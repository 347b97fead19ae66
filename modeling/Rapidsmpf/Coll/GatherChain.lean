import Rapidsmpf.Coll.Circulation

/-!
# All ranks of a chain of AllGathers

`Agrees` relates the ranks to what each of them sent to its successor over all AllGathers. A rank
that has left an AllGather has received all that was put into it on the others and has sent on all
that had further to go, so that the messages of a later AllGather never overtake those a neighbour
still needs. `reachable_agrees` is the invariant; nothing is assumed about how far apart the ranks
are.
-/

namespace Rapidsmpf.AllGather

open Protocol Coll Circular Fallible

variable {n r q e : Nat} {h h' : Nat → List (Nat × Msg)} {s s' : Ranks}

/-- The application of a rank has finished its contributions to an AllGather. -/
def finishedIn (s : Ranks) (e r : Nat) : Bool :=
  decide (e < s.number r) || (decide (e = s.number r) && (s.members r).locallyFinished)

/-- What the application of a rank put into an AllGather. -/
def produced (s : Ranks) (e r : Nat) : List Msg :=
  producedBy r (s.insertions e r) (finishedIn s e r)

/-- Fewer than `2 ^ 32` insertions into each AllGather on each rank, with sequence numbers below
`2 ^ 38`. -/
structure ValidInsertions (n : Nat) (s : Ranks) : Prop where
  length_lt : ∀ e, ∀ r < n, (s.insertions e r).length < 2 ^ 32
  sequence_lt : ∀ e, ∀ r < n, ∀ y ∈ s.insertions e r, y.sequence < 2 ^ 38

theorem ValidInsertions.contributes (hle : n ≤ 2 ^ 26) (hvalid : ValidInsertions n s) (e : Nat) :
    Contributes n (produced s e) (s.insertions e) (finishedIn s e) :=
  ⟨hle, fun _ _ => rfl, hvalid.length_lt e, hvalid.sequence_lt e⟩

/-- The station of a rank that received `got` and not yet `rest`. -/
def StationOf (n : Nat) (h : Nat → List (Nat × Msg)) (s : Ranks) (r : Nat)
    (got rest : List (Nat × Msg)) (d : Desk) : Prop :=
  Station n r (s.number r) (s.insertions (s.number r) r) (s.members r).locallyFinished got rest
    (h r) d [] (s.members r, s.comm)

/-- An AllGather that a rank has left: all of it came, and all that had further to go was sent. -/
structure Left (n : Nat) (h : Nat → List (Nat × Msg)) (s : Ranks) (e r : Nat) : Prop where
  received : (ofNumber e (h (pred n r))).Perm (union (produced s e) (others n r))
  finished : ∀ q < n, finishedIn s e q = true
  closed : Closed n (ofNumber e (h r))
  flow : ∀ m, (ofNumber e (h r)).count m ≤ (produced s e r).count m
    + if m.origin = succ n r then 0 else (ofNumber e (h (pred n r))).count m

/-- The ranks agree with what each of them sent. -/
structure Agrees (n : Nat) (h : Nat → List (Nat × Msg)) (s : Ranks) : Prop where
  station : ∀ r < n, ∃ got rest d, got ++ rest = h (pred n r) ∧ StationOf n h s r got rest d
  done : ∀ r < n, (s.members r).canExtract = true → isDone (s.members r) = true
  number_le : ∀ r < n, ∀ x ∈ h r, x.1 ≤ s.number r
  sorted : ∀ r < n, (h r).Pairwise fun x y => x.1 ≤ y.1
  origin_lt : ∀ r < n, ∀ x ∈ h r, x.2.origin < n
  left : ∀ r < n, ∀ e < s.number r, Left n h s e r
  later : ∀ r < n, ∀ e, s.number r < e → s.insertions e r = []

theorem mem_of_number {m : Msg} {l : List (Nat × Msg)} (hm : m ∈ ofNumber e l) : (e, m) ∈ l := by
  obtain ⟨⟨e', m'⟩, hx, rfl⟩ := List.mem_map.mp hm
  obtain ⟨hmem, heq⟩ := List.mem_filter.mp hx
  simp only [decide_eq_true_eq] at heq
  exact heq ▸ hmem

theorem of_number_eq_nil {l : List (Nat × Msg)} (hl : ∀ x ∈ l, x.1 ≠ e) : ofNumber e l = [] := by
  rw [ofNumber, List.map_eq_nil_iff, List.filter_eq_nil_iff]
  intro x hx
  simpa using hl x hx

/-! ## Consequences -/

namespace Agrees

/-- What a rank sent for an AllGather was put in there or came from its predecessor. -/
theorem flow_at (ha : Agrees n h s) (hr : r < n) (e : Nat) (m : Msg) :
    (ofNumber e (h r)).count m ≤ (produced s e r).count m
      + if m.origin = succ n r then 0 else (ofNumber e (h (pred n r))).count m := by
  rcases Nat.lt_trichotomy e (s.number r) with hlt | rfl | hgt
  · exact (ha.left r hr e hlt).flow m
  · obtain ⟨got, rest, d, hfeed, hstation⟩ := ha.station r hr
    have hflow := hstation.holds.balanced.flow m
    have hproduced : d.produced = produced s (s.number r) r := by
      rw [hstation.holds.produced, produced, finishedIn]
      simp
    rw [hproduced, hstation.links.forwarded, hstation.links.arrived] at hflow
    rw [← hfeed, of_number_append, List.count_append]
    split at hflow
    · next heq =>
        rw [if_pos heq]
        omega
    · next hne =>
        rw [if_neg hne]
        omega
  · rw [of_number_eq_nil fun x hx => Nat.ne_of_lt (Nat.lt_of_le_of_lt (ha.number_le r hr x hx) hgt)]
    exact Nat.zero_le _

theorem flows (ha : Agrees n h s) (e : Nat) :
    Flows n (produced s e) fun r => ofNumber e (h r) := by
  constructor
  · intro r hr m hm
    exact ha.origin_lt r hr (e, m) (mem_of_number hm)
  · intro r hr m
    exact ha.flow_at hr e m

/-- The predecessor sends nothing of a later AllGather before the collective is closed. -/
theorem supplied (ha : Agrees n h s) (hr : r < n) :
    Supplied n (s.number r) (h (pred n r)) := by
  intro got x rest hfeed hle
  by_cases heq : x.1 = s.number r
  · exact Or.inl heq
  · right
    have hp := pred_lt hr
    have hgt : s.number r < x.1 := Nat.lt_of_le_of_ne (hle x List.mem_cons_self) (Ne.symm heq)
    have hnumber := ha.number_le _ hp x (by rw [hfeed]; simp)
    have hclosed := (ha.left _ hp (s.number r) (by omega)).closed
    have hsorted := ha.sorted _ hp
    rw [hfeed] at hclosed hsorted
    have hrest : ofNumber (s.number r) (x :: rest) = [] := by
      refine of_number_eq_nil fun y hy => ?_
      rcases List.mem_cons.mp hy with rfl | hy
      · exact heq
      · have hxy := (List.pairwise_cons.mp (List.pairwise_append.mp hsorted).2.1).1 y hy
        omega
    rwa [of_number_append, hrest, List.append_nil] at hclosed

end Agrees

/-! ## A rank that is done -/

/-- What can be extracted when nothing is left in between. -/
theorem Desk.Balanced.extraction_perm {dst : Nat} {d : Desk} (hd : d.Balanced dst)
    (hbox : d.box = []) (hexpected : d.expected = []) (hsending : d.sending = []) :
    (d.extraction.map Msg.data).Perm ((d.produced ++ d.arrived).filter fun m => !m.isFinish) := by
  refine List.perm_iff_count.mpr fun m => ?_
  cases m with
  | finish id =>
      rw [Desk.count_map_finish, List.count_eq_zero.mpr]
      simp [Msg.isFinish]
  | data item =>
      have hflow := hd.flow (.data item)
      have hextraction := hd.extraction item
      rw [Desk.count_map_data, List.count_filter (by rfl), List.count_append]
      simp only [hbox, hexpected, hsending, List.map_nil, List.count_nil, ite_self]
        at hflow hextraction
      split at hflow
      · next heq =>
          rw [if_pos heq] at hextraction
          omega
      · next hne =>
          rw [if_neg hne] at hextraction
          omega

/-- A rank that is done has nothing left in between. -/
theorem Holds.emptied {ins : List Insertion} {fin : Bool} {d : Desk} {a : Members}
    (hd : Holds n r ins fin d [] a) (hdone : isDone a = true) :
    d.box = [] ∧ d.waiting = [] ∧ d.posted = [] ∧ d.sending = [] ∧ a.finishCounter = 0
      ∧ a.extractionGoalpost = d.extraction.length := by
  simp only [isDone, Bool.and_eq_true, decide_eq_true_eq, List.isEmpty_iff] at hdone
  obtain ⟨⟨hcounter, hgoalpost⟩, ⟨⟨⟨-, hsent⟩, hposted⟩, hreceive⟩, hinserted⟩ := hdone
  have hbox := hd.box
  have hwaiting := hd.waiting
  have hpost := hd.posted
  have hsending := hd.sending
  rw [hinserted, List.append_nil] at hbox
  rw [hreceive] at hwaiting
  rw [hposted] at hpost
  rw [hsent] at hsending
  refine ⟨List.forall₂_nil_left_iff.mp hbox, List.forall₂_nil_left_iff.mp hwaiting,
    List.forall₂_nil_left_iff.mp hpost, List.forall₂_nil_left_iff.mp hsending, hcounter, ?_⟩
  rw [hgoalpost, hd.extraction.length_eq]

/-- The number of contributions among messages. -/
theorem length_filter_data (l : List Msg) :
    (l.filter fun m => !m.isFinish).length + l.countP Msg.isFinish = l.length := by
  have hsplit := List.length_eq_length_filter_add (l := l) Msg.isFinish
  rw [← List.countP_eq_length_filter] at hsplit
  omega

namespace Agrees

section Closing

variable {got rest : List (Nat × Msg)} {d : Desk}

theorem arrived_subperm (hn : 1 < n) (hle : n ≤ 2 ^ 26) (hvalid : ValidInsertions n s)
    (ha : Agrees n h s) (hr : r < n) (hfeed : got ++ rest = h (pred n r)) :
    List.Subperm (ofNumber (s.number r) got ++ ofNumber (s.number r) rest)
      (union (produced s (s.number r)) (others n r)) := by
  have hsub := (ha.flows (s.number r)).subperm_others hn (hvalid.contributes hle _) hr
  rwa [← hfeed, of_number_append] at hsub

/-- A closed collective: all that was put in on the others has come. -/
theorem arrived_perm (hn : 1 < n) (hle : n ≤ 2 ^ 26) (hvalid : ValidInsertions n s)
    (ha : Agrees n h s) (hr : r < n) (hfeed : got ++ rest = h (pred n r))
    (hstation : StationOf n h s r got rest d) (hclosed : Closed n d.arrived) :
    d.arrived.Perm (union (produced s (s.number r)) (others n r))
      ∧ (∀ q ∈ others n r, finishedIn s (s.number r) q = true)
      ∧ ofNumber (s.number r) rest = [] := by
  have hsub := arrived_subperm hn hle hvalid ha hr hfeed
  rw [hstation.links.arrived] at hclosed ⊢
  obtain ⟨hperm, hfinished⟩ := hclosed.perm (hvalid.contributes hle _)
    (fun q hq => (mem_others.mp hq).1) (length_others hr)
    ((List.sublist_append_left _ _).subperm.trans hsub)
  refine ⟨hperm, hfinished, List.eq_nil_of_length_eq_zero ?_⟩
  have hlength := hsub.length_le
  rw [List.length_append, hperm.length_eq] at hlength
  omega

/-- A rank that is done has finished, and the collective is closed for it. -/
theorem done_closed (hn : 1 < n) (hle : n ≤ 2 ^ 26) (hvalid : ValidInsertions n s)
    (ha : Agrees n h s) (hr : r < n) (hfeed : got ++ rest = h (pred n r))
    (hstation : StationOf n h s r got rest d) (hdone : isDone (s.members r) = true) :
    (s.members r).locallyFinished = true ∧ Closed n d.arrived := by
  have hcontributes := hvalid.contributes hle (s.number r)
  obtain ⟨hbox, hwaiting, hposted, hsending, hcounter, hgoalpost⟩ :=
    hstation.holds.emptied hdone
  have hextraction := (hstation.holds.balanced.extraction_perm hbox
    (by rw [Desk.expected, hwaiting, hposted]; rfl) hsending).length_eq
  have hproduced : d.produced = produced s (s.number r) r := by
    rw [hstation.holds.produced, produced, finishedIn]
    simp
  have hfinishes := hcontributes.finishes_eq hr
  have hannounced := hcontributes.announced_eq hr
  have hlength := hcontributes.length_eq hr
  have hself : finishedIn s (s.number r) r = (s.members r).locallyFinished := by
    simp [finishedIn]
  rw [← hproduced, hself] at hfinishes hannounced hlength
  -- no more finish messages came than there are others
  have hcount : d.arrived.countP Msg.isFinish + 1 ≤ n := by
    have hsub := (arrived_subperm hn hle hvalid ha hr hfeed).countP_le Msg.isFinish
    have hsum : (union (produced s (s.number r)) (others n r)).countP Msg.isFinish
        ≤ (others n r).length := by
      rw [union, List.countP_flatMap]
      refine sum_le_length fun q hq => ?_
      rw [Function.comp_apply, hcontributes.finishes_eq (mem_others.mp hq).1]
      split <;> omega
    have hothers := length_others hr
    rw [List.countP_append, ← hstation.links.arrived] at hsub
    omega
  have hfinish := hstation.holds.counted.finish
  have hgoal := hstation.holds.counted.goalpost
  rw [hcounter, hbox, List.countP_nil] at hfinish
  rw [hgoalpost, hbox, List.map_nil, List.sum_nil] at hgoal
  have hsplit := length_filter_data (d.produced ++ d.arrived)
  rw [List.length_map] at hextraction
  rw [List.countP_append, List.length_append, ← hextraction] at hsplit
  cases hfin : (s.members r).locallyFinished with
  | false =>
      rw [hfin, if_neg (by simp)] at hfinishes
      omega
  | true =>
      rw [hfin, if_pos rfl] at hfinishes hannounced hlength
      exact ⟨rfl, by omega, by omega⟩

/-- A rank that is done has sent on all that had further to go. -/
theorem forwarded_perm (hn : 1 < n) (hle : n ≤ 2 ^ 26) (hvalid : ValidInsertions n s)
    (ha : Agrees n h s) (hr : r < n) (hfeed : got ++ rest = h (pred n r))
    (hstation : StationOf n h s r got rest d) (hdone : isDone (s.members r) = true) :
    (ofNumber (s.number r) (h r)).Perm
      (union (produced s (s.number r)) (others n (succ n r))) := by
  have hcontributes := hvalid.contributes hle (s.number r)
  obtain ⟨-, hclosed⟩ := done_closed hn hle hvalid ha hr hfeed hstation hdone
  obtain ⟨hperm, -, -⟩ := arrived_perm hn hle hvalid ha hr hfeed hstation hclosed
  obtain ⟨hbox, hwaiting, hposted, -⟩ := hstation.holds.emptied hdone
  have hproduced : d.produced = produced s (s.number r) r := by
    rw [hstation.holds.produced, produced, finishedIn]
    simp
  rw [← hstation.links.forwarded]
  refine List.perm_iff_count.mpr fun m => ?_
  have hflow := hstation.holds.balanced.flow m
  simp only [hbox, Desk.expected, hwaiting, hposted, List.append_nil, List.map_nil,
    List.count_nil, ite_self, Nat.zero_add] at hflow
  rw [hproduced, hperm.count_eq, hcontributes.count_union (others_nodup n r)
    fun q hq => (mem_others.mp hq).1] at hflow
  rw [hcontributes.count_union (others_nodup n _) fun q hq => (mem_others.mp hq).1]
  simp only [mem_others] at hflow ⊢
  by_cases hself : m.origin = r
  · rw [if_pos ⟨hself ▸ hr, fun heq => succ_ne hn hr (heq ▸ hself)⟩, hself]
    have hnot : ¬ (m.origin < n ∧ m.origin ≠ r) := fun hmem => hmem.2 hself
    rw [if_neg hnot, ite_self] at hflow
    omega
  · have hzero : (produced s (s.number r) r).count m = 0 :=
      List.count_eq_zero.mpr fun hm => hself (hcontributes.origin_eq hr hm)
    by_cases hsucc : m.origin = succ n r
    · rw [if_neg fun h => h.2 hsucc]
      rw [if_pos hsucc] at hflow
      omega
    · rw [if_neg hsucc] at hflow
      by_cases hlt : m.origin < n
      · rw [if_pos ⟨hlt, hsucc⟩]
        rw [if_pos ⟨hlt, hself⟩] at hflow
        omega
      · rw [if_neg fun h => hlt h.1]
        rw [if_neg fun h => hlt h.1] at hflow
        omega

/-- A rank that is done can leave its AllGather. -/
theorem leaves (hn : 1 < n) (hle : n ≤ 2 ^ 26) (hvalid : ValidInsertions n s)
    (ha : Agrees n h s) (hr : r < n) (hdone : isDone (s.members r) = true) :
    Left n h s (s.number r) r := by
  have hcontributes := hvalid.contributes hle (s.number r)
  obtain ⟨got, rest, d, hfeed, hstation⟩ := ha.station r hr
  obtain ⟨hself, hclosed⟩ := done_closed hn hle hvalid ha hr hfeed hstation hdone
  obtain ⟨hperm, hothers, hrest⟩ := arrived_perm hn hle hvalid ha hr hfeed hstation hclosed
  have hfinished : ∀ q < n, finishedIn s (s.number r) q = true := by
    intro q hq
    by_cases hqr : q = r
    · subst hqr
      simp [finishedIn, hself]
    · exact hothers q (mem_others.mpr ⟨hq, hqr⟩)
  refine ⟨?_, hfinished, ?_, fun m => ha.flow_at hr _ m⟩
  · rw [← hfeed, of_number_append, hrest, List.append_nil, ← hstation.links.arrived]
    exact hperm
  · exact hcontributes.closed (fun q hq => (mem_others.mp hq).1) (length_others (succ_lt hr))
      (fun q hq => hfinished q (mem_others.mp hq).1)
      (forwarded_perm hn hle hvalid ha hr hfeed hstation hdone)

end Closing

end Agrees

/-! ## The steps -/

section Steps

variable {ins : List Insertion} {fin : Bool} {got rest out new : List (Nat × Msg)} {d : Desk}
  {a a' : Members} {c c' : Comm} {m : Msg} {chunk : Chunk}

/-- The desk of a new AllGather. -/
def Desk.empty : Desk := ⟨[], [], [], [], [], [], [], []⟩

/-- A new AllGather. -/
theorem Holds.make (n r : Nat) : Holds n r [] false .empty [] (.make n) where
  balanced := ⟨fun m => by simp [Desk.empty, Desk.expected],
    fun item => by simp [Desk.empty, Desk.expected]⟩
  counted := ⟨by simp [Desk.empty, Members.make], rfl, rfl, by simp [Desk.empty, Members.make],
    rfl⟩
  finished := rfl
  produced := rfl
  nlocal := rfl
  box := .nil
  valid := fun m hm => by cases hm
  waiting := .nil
  posted := .nil
  sending := .nil
  extraction := .nil

/-- The application puts in a message. -/
def Desk.put (m : Msg) (d : Desk) : Desk :=
  { d with produced := d.produced ++ [m], box := d.box ++ [m] }

theorem Holds.put (hd : Holds n r ins fin d [] a) (hmsg : chunk.Says m) (hvalid : m.Valid)
    {ins' : List Insertion} {fin' : Bool} {nlocal : Nat}
    (hproduced : producedBy r ins fin ++ [m] = producedBy r ins' fin')
    (hnlocal : nlocal = ins'.length % 2 ^ 32) :
    Holds n r ins' fin' (d.put m) [] { a with
      inserted := a.inserted ++ [chunk], nlocalInsertions := nlocal, locallyFinished := fin' } where
  balanced := by
    refine ⟨fun m' => ?_, hd.balanced.extraction⟩
    have hflow := hd.balanced.flow m'
    simp only [Desk.put, Desk.expected, List.count_append] at hflow ⊢
    omega
  counted := by
    obtain ⟨hremote, hreceived, hexpected, hfinish, hgoalpost⟩ := hd.counted
    refine ⟨hremote, hreceived, hexpected, ?_, ?_⟩
    · simp only [Desk.put, List.countP_append]
      omega
    · simp only [Desk.put, List.map_append, List.sum_append]
      omega
  finished := rfl
  produced := by
    rw [← hproduced, ← hd.produced]
    rfl
  nlocal := hnlocal
  box := List.rel_append hd.box (.cons hmsg .nil)
  valid := fun m' hm => by
    rcases List.mem_append.mp hm with hm | hm
    · exact hd.valid m' hm
    · obtain rfl := List.mem_singleton.mp hm
      exact hvalid
  waiting := hd.waiting
  posted := hd.posted
  sending := hd.sending
  extraction := hd.extraction

/-- `insert`. -/
theorem Holds.insert {sequence : Nat} {pd : Shuffle.PackedData} {memType : MemoryType}
    (hd : Holds n r ins a.locallyFinished d [] a)
    (hok : AllGather.insert n r sequence pd memType a = .ok a')
    (hid : chunkId sequence r < 2 ^ 64) :
    a.locallyFinished = false ∧ a'.canExtract = a.canExtract
      ∧ a'.receivePosted = a.receivePosted
      ∧ Holds n r (ins ++ [⟨sequence, pd.metadata, pd.data.bytes⟩]) a'.locallyFinished
        (d.put (.data ⟨chunkId sequence r, pd.metadata, pd.data.bytes⟩)) [] a' := by
  simp only [AllGather.insert, insertChunk] at hok
  -- `ensure_memory_type` keeps the bytes
  obtain ⟨pd', hpd', hmeta, hbytes⟩ : ∃ pd', (if 1 < n then
      { pd with data := { pd.data with memType := memType } } else pd) = pd'
      ∧ pd'.metadata = pd.metadata ∧ pd'.data.bytes = pd.data.bytes :=
    ⟨_, rfl, by split <;> rfl, by split <;> rfl⟩
  rw [hpd'] at hok
  split at hok
  case isTrue => cases hok
  case isFalse hopen =>
      split at hok
      case isTrue => cases hok
      case isFalse =>
          have hopen : a.locallyFinished = false := by simpa using hopen
          cases pure_eq_ok.mp hok
          refine ⟨hopen, rfl, rfl, ?_⟩
          have hmsg : (Chunk.fromPackedData sequence r none pd').Says
              (.data ⟨chunkId sequence r, pd.metadata, pd.data.bytes⟩) :=
            ⟨rfl, congrArg some hmeta, congrArg some hbytes, congrArg List.length hbytes⟩
          rw [hopen] at hd ⊢
          refine hd.put hmsg (hmsg.valid hid) (by simp [producedBy]) ?_
          rw [hd.nlocal]
          simp

/-- `insert_finished`. -/
theorem Holds.insert_finished (hd : Holds n r ins a.locallyFinished d [] a)
    (hopen : a.locallyFinished = false) (hid : chunkId (ins.length % 2 ^ 32) r < 2 ^ 64) :
    Holds n r ins (insertFinished r a).locallyFinished
      (d.put (.finish (chunkId (ins.length % 2 ^ 32) r))) [] (insertFinished r a) := by
  rw [hopen] at hd
  have hmsg : (Chunk.fromEmpty a.nlocalInsertions r none).Says
      (.finish (chunkId (ins.length % 2 ^ 32) r)) := by
    rw [hd.nlocal]
    exact ⟨rfl, rfl, rfl, rfl⟩
  exact hd.put hmsg hid (by simp [producedBy, insertFinished]) hd.nlocal

/-- The channels do not change with what the application puts in. -/
theorem Links.put (hl : Links n r e got rest out d (a, c))
    (hposted : a'.receivePosted = a.receivePosted) :
    Links n r e got rest out (d.put m) (a', c) := by
  have hpositions := hl.positions
  rw [← hposted] at hpositions
  exact { hl with positions := hpositions }

/-- Steps of another rank. -/
theorem Links.frame (hl : Links n q e got rest out d (a, c)) (hframe : Frame n r c c')
    (hqr : q ≠ r) (hin : Feed c' (pred n q, q) (got ++ (rest ++ new)))
    (hnew : ∀ x ∈ new, e ≤ x.1) : Links n q e got (rest ++ new) out d (a, c') := by
  have hlink : (pred n q, q) ≠ (pred n r, r) := fun heq => hqr (congrArg Prod.snd heq)
  refine ⟨hl.arrived, hl.forwarded,
    hl.outgoing.frame hframe fun heq => hqr (congrArg Prod.fst heq), hin,
    (hframe.metadata_taken _ hlink).trans hl.metadata_taken, ?_, hl.got_le, ?_, ?_⟩
  · obtain ⟨front, hfront, htaken⟩ := hl.payload_taken
    exact ⟨front, hfront, (hframe.payload_taken _ hlink).trans htaken⟩
  · intro x hx
    rcases List.mem_append.mp hx with hx | hx
    · exact hl.rest_le x hx
    · exact hnew x hx
  · refine hl.positions.imp fun y item hy => ⟨hy.1, ?_⟩
    obtain ⟨hlt, -⟩ := List.getElem?_eq_some_iff.mp hy.2
    rw [← List.append_assoc, items_of_append, List.getElem?_append_left hlt]
    exact hy.2

end Steps

/-- What a rank has left stays as it is. -/
theorem Left.congr (hl : Left n h s e r) (hr : r < n)
    (hproduced : ∀ q < n, produced s' e q = produced s e q)
    (hfinished : ∀ q < n, finishedIn s e q = true → finishedIn s' e q = true)
    (hout : ofNumber e (h' r) = ofNumber e (h r))
    (hin : ofNumber e (h' (pred n r)) = ofNumber e (h (pred n r))) : Left n h' s' e r := by
  have hunion : union (produced s' e) (others n r) = union (produced s e) (others n r) :=
    List.flatMap_congr fun q hq => hproduced q (mem_others.mp hq).1
  refine ⟨?_, fun q hq => hfinished q hq (hl.finished q hq), ?_, fun m => ?_⟩
  · rw [hin, hunion]
    exact hl.received
  · rw [hout]
    exact hl.closed
  · rw [hout, hin, hproduced r hr]
    exact hl.flow m

namespace Agrees

/-- The ranks before any step. -/
theorem initial (n : Nat) : Agrees n (fun _ => []) (.initial n) := by
  have hfeed : ∀ link, Feed .empty link [] := fun link => ⟨rfl, rfl, by simp⟩
  refine ⟨fun r hr => ⟨[], [], .empty, rfl, Holds.make n r, ?_⟩,
    by simp [Ranks.initial, Members.make], by simp, by simp, by simp,
    fun r hr e he => absurd he (Nat.not_lt_zero e), fun _ _ _ _ => rfl⟩
  exact ⟨rfl, rfl, hfeed _, hfeed _, rfl, ⟨[], rfl, rfl⟩, by simp, by simp, .nil⟩

/-- A rank whose application has not finished is not done. -/
theorem not_done (hn : 1 < n) (hle : n ≤ 2 ^ 26) (hvalid : ValidInsertions n s)
    (ha : Agrees n h s) (hr : r < n) (hopen : (s.members r).locallyFinished = false) :
    (s.members r).canExtract = false := by
  by_contra hcan
  obtain ⟨got, rest, d, hfeed, hstation⟩ := ha.station r hr
  obtain ⟨hfinished, -⟩ := done_closed hn hle hvalid ha hr hfeed hstation
    (ha.done r hr (by simpa using hcan))
  rw [hopen] at hfinished
  cases hfinished

/-- The application of a rank that has not finished puts in a message. -/
theorem put (ha : Agrees n h s) (hr : r < n) (hopen : (s.members r).locallyFinished = false)
    (hcan : (s'.members r).canExtract = false) (hcomm : s'.comm = s.comm)
    (hnumber : s'.number = s.number) (hmembers : ∀ q, q ≠ r → s'.members q = s.members q)
    (hinsertions : ∀ e q, ¬ (e = s.number r ∧ q = r) → s'.insertions e q = s.insertions e q)
    (hstation : ∀ got rest d, StationOf n h s r got rest d →
      ∃ d', StationOf n h s' r got rest d') : Agrees n h s' := by
  refine ⟨fun q hq => ?_, fun q hq hextract => ?_, ?_, ha.sorted, ha.origin_lt, ?_, ?_⟩
  · obtain ⟨got, rest, d, hfeed, hold⟩ := ha.station q hq
    by_cases hqr : q = r
    · subst hqr
      obtain ⟨d', hnew⟩ := hstation got rest d hold
      exact ⟨got, rest, d', hfeed, hnew⟩
    · refine ⟨got, rest, d, hfeed, ?_⟩
      rw [StationOf, hcomm, hnumber, hmembers q hqr, hinsertions _ q fun heq => hqr heq.2]
      exact hold
  · by_cases hqr : q = r
    · subst hqr
      rw [hcan] at hextract
      cases hextract
    · rw [hmembers q hqr] at hextract ⊢
      exact ha.done q hq hextract
  · rw [hnumber]
    exact ha.number_le
  · rw [hnumber]
    intro q hq e he
    have hleft := ha.left q hq e he
    -- nobody has left the AllGather that this rank still contributes to
    have hother : ∀ o < n, ¬ (e = s.number r ∧ o = r) := by
      rintro o - ⟨heq, -⟩
      have hfinished := hleft.finished r hr
      simp [finishedIn, heq, hopen] at hfinished
    have hfinished : ∀ o < n, finishedIn s' e o = finishedIn s e o := by
      intro o ho
      by_cases hor : o = r
      · subst hor
        have hne : ¬ e = s.number o := fun heq => hother o ho ⟨heq, rfl⟩
        simp [finishedIn, hnumber, hne]
      · rw [finishedIn, finishedIn, hnumber, hmembers o hor]
    refine hleft.congr hq (fun o ho => ?_) (fun o ho hfin => ?_) rfl rfl
    · rw [produced, produced, hfinished o ho, hinsertions e o (hother o ho)]
    · rw [hfinished o ho]
      exact hfin
  · rw [hnumber]
    intro q hq e he
    rw [hinsertions e q fun heq => by
      obtain ⟨rfl, rfl⟩ := heq
      exact Nat.lt_irrefl _ he]
    exact ha.later q hq e he

/-- `insert`. -/
theorem insert {sequence : Nat} {d : Shuffle.PackedData} {memType : MemoryType} (hn : 1 < n)
    (hle : n ≤ 2 ^ 26) (hvalid : ValidInsertions n s) (hvalid' : ValidInsertions n s')
    (ha : Agrees n h s) (hr : r < n) (hok : step n (.insert r sequence d memType) s = .ok s') :
    Agrees n h s' := by
  obtain ⟨a', hinsert, hs⟩ := bind_eq_ok.mp hok
  cases pure_eq_ok.mp hs
  have hsequence : sequence < 2 ^ 38 := by
    refine hvalid'.sequence_lt (s.number r) r hr ⟨sequence, d.metadata, d.data.bytes⟩ ?_
    simp [Ranks.put, Ranks.logInsertion]
  have hid := chunk_id_lt hsequence (Nat.lt_of_lt_of_le hr hle)
  obtain ⟨got₀, rest₀, d₀, -, hstation₀⟩ := ha.station r hr
  obtain ⟨hopen, hextract, hposted, -⟩ := hstation₀.holds.insert hinsert hid
  refine ha.put hr hopen ?_ rfl rfl (fun q hqr => ?_) (fun e q hne => ?_) ?_
  · simpa [Ranks.put, hextract] using not_done hn hle hvalid ha hr hopen
  · simp [Ranks.put, Ranks.logInsertion, Function.update_of_ne hqr]
  · simp [Ranks.put, Ranks.logInsertion, hne]
  · intro got rest desk hstation
    obtain ⟨-, -, -, hholds⟩ := hstation.holds.insert hinsert hid
    refine ⟨desk.put (.data ⟨chunkId sequence r, d.metadata, d.data.bytes⟩), ?_⟩
    simp only [StationOf, Ranks.put, Ranks.logInsertion, Function.update_self, and_self, if_true]
    exact ⟨hholds, hstation.links.put hposted⟩

/-- `insert_finished`. -/
theorem insert_finished (hn : 1 < n) (hle : n ≤ 2 ^ 26) (hvalid : ValidInsertions n s)
    (ha : Agrees n h s) (hr : r < n) (hok : step n (.insertFinished r) s = .ok s') :
    Agrees n h s' := by
  simp only [step] at hok
  split at hok
  case isTrue => cases hok
  case isFalse hopen =>
      have hopen : (s.members r).locallyFinished = false := by simpa using hopen
      cases pure_eq_ok.mp hok
      have hsequence : (s.insertions (s.number r) r).length % 2 ^ 32 < 2 ^ 38 := by omega
      have hid := chunk_id_lt hsequence (Nat.lt_of_lt_of_le hr hle)
      refine ha.put hr hopen ?_ rfl rfl (fun q hqr => ?_) (fun _ _ _ => rfl) ?_
      · simpa [Ranks.put, insertFinished] using not_done hn hle hvalid ha hr hopen
      · simp [Ranks.put, Function.update_of_ne hqr]
      · intro got rest d hstation
        refine ⟨d.put (.finish (chunkId ((s.insertions (s.number r) r).length % 2 ^ 32) r)), ?_⟩
        simp only [StationOf, Ranks.put, Function.update_self]
        exact ⟨hstation.holds.insert_finished hopen hid, hstation.links.put rfl⟩

section EventLoop

variable {new : List (Nat × Msg)} {got rest : List (Nat × Msg)} {d : Desk} {a : Members} {c : Comm}

/-- What a rank sends on in its AllGather was put in there or came from its predecessor. -/
theorem flow_new (hnumber : e = s.number r)
    (hfeed : got ++ rest = h (pred n r))
    (hstation : Station n r e (s.insertions e r) (s.members r).locallyFinished got rest
      (h r ++ new) d [] (a, c)) (m : Msg) :
    (ofNumber e (h r ++ new)).count m ≤ (produced s e r).count m
      + if m.origin = succ n r then 0 else (ofNumber e (h (pred n r))).count m := by
  have hflow := hstation.holds.balanced.flow m
  have hproduced : d.produced = produced s e r := by
    rw [hstation.holds.produced, produced, finishedIn, hnumber]
    simp
  rw [hproduced, hstation.links.forwarded, hstation.links.arrived] at hflow
  rw [← hfeed, of_number_append e got, List.count_append]
  split at hflow
  · next heq =>
      rw [if_pos heq]
      omega
  · next hne =>
      rw [if_neg hne]
      omega

/-- The origins of what a rank sends on. -/
theorem origin_new (hle : n ≤ 2 ^ 26) (hvalid : ValidInsertions n s) (ha : Agrees n h s)
    (hr : r < n) (hnumber : e = s.number r) (hfeed : got ++ rest = h (pred n r))
    (hstation : Station n r e (s.insertions e r) (s.members r).locallyFinished got rest
      (h r ++ new) d [] (a, c)) (hnew : ∀ x ∈ new, x.1 = e) :
    ∀ x ∈ h r ++ new, x.2.origin < n := by
  intro x hx
  rcases List.mem_append.mp hx with hold | hmem
  · exact ha.origin_lt r hr x hold
  · obtain ⟨e', m⟩ := x
    obtain rfl : e' = e := hnew _ hmem
    have hpos : 0 < (ofNumber e' (h r ++ new)).count m := by
      refine List.count_pos_iff.mpr (List.mem_map.mpr ⟨(e', m), ?_, rfl⟩)
      exact List.mem_filter.mpr ⟨hx, by simp⟩
    have hflow := flow_new hnumber hfeed hstation m
    by_cases hproduced : m ∈ produced s e' r
    · have horigin := (hvalid.contributes hle e').origin_eq hr hproduced
      exact horigin ▸ hr
    · rw [List.count_eq_zero.mpr hproduced, Nat.zero_add] at hflow
      split at hflow
      · omega
      · have hm := List.count_pos_iff.mp (Nat.lt_of_lt_of_le hpos hflow)
        exact ha.origin_lt _ (pred_lt hr) (e', m) (mem_of_number hm)

/-- A rank sends nothing on to a successor that has already left the AllGather. -/
theorem new_eq_nil (hn : 1 < n) (hle : n ≤ 2 ^ 26) (hvalid : ValidInsertions n s)
    (ha : Agrees n h s) (hr : r < n) (hfeed : got ++ rest = h (pred n r))
    (hstation : Station n r (s.number r) (s.insertions (s.number r) r)
      (s.members r).locallyFinished got rest (h r ++ new) d [] (a, c))
    (hnew : ∀ x ∈ new, x.1 = s.number r) (hahead : s.number r < s.number (succ n r)) :
    new = [] := by
  have hself : ∀ q, q ≠ r → Function.update h r (h r ++ new) q = h q := fun q hqr =>
    Function.update_of_ne hqr _ _
  have hflows : Flows n (produced s (s.number r))
      fun q => ofNumber (s.number r) (Function.update h r (h r ++ new) q) := by
    constructor
    · intro q hq m hm
      by_cases hqr : q = r
      · subst hqr
        rw [Function.update_self] at hm
        exact origin_new hle hvalid ha hr rfl hfeed hstation hnew (s.number q, m) (mem_of_number hm)
      · rw [hself q hqr] at hm
        exact ha.origin_lt q hq (s.number r, m) (mem_of_number hm)
    · intro q hq m
      by_cases hqr : q = r
      · subst hqr
        rw [Function.update_self, hself _ (pred_ne hn hq)]
        exact flow_new rfl hfeed hstation m
      · rw [hself q hqr]
        refine (ha.flow_at hq (s.number r) m).trans (Nat.add_le_add_left ?_ _)
        split
        · exact le_refl _
        · by_cases hpr : pred n q = r
          · rw [hpr, Function.update_self, of_number_append, List.count_append]
            omega
          · rw [hself _ hpr]
  have hsub := hflows.subperm_others hn (hvalid.contributes hle _) (succ_lt hr)
  have hleft := (ha.left _ (succ_lt hr) _ hahead).received
  simp only [pred_succ hr, Function.update_self, of_number_append] at hsub hleft
  have hlength := hsub.length_le
  rw [List.length_append, hleft.length_eq] at hlength
  have hnil : ofNumber (s.number r) new = [] := List.eq_nil_of_length_eq_zero (by omega)
  rw [ofNumber, List.filter_eq_self.mpr fun x hx => by simp [hnew x hx]] at hnil
  exact List.map_eq_nil_iff.mp hnil

end EventLoop

/-- A call of `event_loop`. -/
theorem event_loop {env : Env} {a : Members} {c : Comm} (hn : 1 < n) (hle : n ≤ 2 ^ 26)
    (hvalid : ValidInsertions n s) (ha : Agrees n h s) (hr : r < n)
    (hok : eventLoop n r (s.number r) env (s.members r, s.comm) = .ok (a, c)) :
    ∃ h', Agrees n h' ({ s with comm := c }.put r a) := by
  obtain ⟨got₀, rest₀, d₀, hfeed₀, hstation₀⟩ := ha.station r hr
  have hworking : Working n r (s.number r) (s.insertions (s.number r) r)
      (s.members r).locallyFinished (h (pred n r)) (h r) s.comm [] (s.members r, s.comm) :=
    ⟨got₀, rest₀, [], d₀, hfeed₀, by simp, by rw [List.append_nil]; exact hstation₀, .refl _ _ _⟩
  obtain ⟨⟨got, rest, new, d, hfeed, hnew, hstation, hframe⟩, hdone⟩ :=
    event_loop_keeps hn hr (ha.supplied hr) hworking hok
  have hfin : a.locallyFinished = (s.members r).locallyFinished := hstation.holds.finished
  let h' := Function.update h r (h r ++ new)
  let s' := { s with comm := c }.put r a
  have hself : h' r = h r ++ new := Function.update_self _ _ _
  have hother : ∀ q, q ≠ r → h' q = h q := fun q hqr => Function.update_of_ne hqr _ _
  have hmembers : s'.members r = a := Function.update_self _ _ _
  have hmembers' : ∀ q, q ≠ r → s'.members q = s.members q := fun q hqr =>
    Function.update_of_ne hqr _ _
  have hfinished : ∀ e q, finishedIn s' e q = finishedIn s e q := by
    intro e q
    by_cases hqr : q = r
    · subst hqr
      rw [finishedIn, hmembers, hfin]
      rfl
    · rw [finishedIn, hmembers' q hqr]
      rfl
  have hproduced : ∀ e q, produced s' e q = produced s e q := fun e q => by
    rw [produced, produced, hfinished]
    rfl
  -- a message for a neighbour that has left the AllGather would come from nowhere
  have hbehind : new = [] ∨ s.number (succ n r) ≤ s.number r := by
    by_cases hahead : s.number r < s.number (succ n r)
    · exact Or.inl (new_eq_nil hn hle hvalid ha hr hfeed hstation hnew hahead)
    · exact Or.inr (Nat.not_lt.mp hahead)
  have hearlier : ∀ q < n, ∀ e < s.number q, ∀ o, o = q ∨ o = pred n q →
      ofNumber e (h' o) = ofNumber e (h o) := by
    intro q hq e he o ho
    by_cases hor : o = r
    · subst hor
      rw [hself, of_number_append]
      have hnil : ofNumber e new = [] := by
        rcases hbehind with rfl | hbehind
        · rfl
        · refine of_number_eq_nil fun x hx => ?_
          rw [hnew x hx]
          rcases ho with rfl | rfl
          · omega
          · rw [succ_pred hq] at hbehind
            omega
      rw [hnil, List.append_nil]
    · rw [hother o hor]
  refine ⟨h', fun q hq => ?_, fun q hq hextract => ?_, fun q hq x hx => ?_, fun q hq => ?_,
    fun q hq => ?_, fun q hq e he => ?_, ha.later⟩
  · by_cases hqr : q = r
    · subst hqr
      refine ⟨got, rest, d, by rw [hother _ (pred_ne hn hq)]; exact hfeed, ?_⟩
      have hthis := hstation
      rw [← hfin] at hthis
      rw [StationOf, hself, hmembers]
      exact hthis
    · obtain ⟨got', rest', d', hfeed', hold⟩ := ha.station q hq
      refine ⟨got', rest' ++ (if pred n q = r then new else []), d', ?_, ?_⟩
      · split
        · next hpr => rw [hpr, hself, ← List.append_assoc, hfeed', hpr]
        · next hpr => rw [List.append_nil, hother _ hpr, hfeed']
      · rw [StationOf, hother q hqr, hmembers' q hqr]
        refine ⟨hold.holds, hold.links.frame hframe hqr ?_ ?_⟩
        · split
          · next hpr =>
              have hq' : succ n r = q := by rw [← hpr, succ_pred hq]
              have hout := hstation.links.outgoing
              rw [hq', ← hpr] at hout
              rw [← List.append_assoc, hfeed']
              exact hout
          · next hpr =>
              rw [List.append_nil]
              exact hold.links.incoming.frame hframe fun heq => hpr (congrArg Prod.fst heq)
        · intro x hx
          split at hx
          · next hpr =>
              have hq' : succ n r = q := by rw [← hpr, succ_pred hq]
              rcases hbehind with rfl | hbehind
              · cases hx
              · rw [hnew x hx, ← hq']
                exact hbehind
          · cases hx
  · by_cases hqr : q = r
    · subst hqr
      rw [hmembers] at hextract ⊢
      exact hdone ▸ hextract
    · rw [hmembers' q hqr] at hextract ⊢
      exact ha.done q hq hextract
  · by_cases hqr : q = r
    · subst hqr
      rw [hself] at hx
      rcases List.mem_append.mp hx with hx | hx
      · exact ha.number_le q hq x hx
      · exact Nat.le_of_eq (hnew x hx)
    · rw [hother q hqr] at hx
      exact ha.number_le q hq x hx
  · by_cases hqr : q = r
    · subst hqr
      rw [hself, List.pairwise_append]
      refine ⟨ha.sorted q hq, ?_, fun x hx y hy => ?_⟩
      · exact List.pairwise_of_forall_mem_list fun x hx y hy => by rw [hnew x hx, hnew y hy]
      · rw [hnew y hy]
        exact ha.number_le q hq x hx
    · rw [hother q hqr]
      exact ha.sorted q hq
  · by_cases hqr : q = r
    · subst hqr
      rw [hself]
      exact origin_new hle hvalid ha hr rfl hfeed hstation hnew
    · rw [hother q hqr]
      exact ha.origin_lt q hq
  · exact (ha.left q hq e he).congr hq (fun o _ => hproduced e o)
      (fun o _ hfin => by rw [hfinished]; exact hfin) (hearlier q hq e he q (Or.inl rfl))
      (hearlier q hq e he _ (Or.inr rfl))

/-- The next AllGather of a rank. -/
theorem start (hn : 1 < n) (hle : n ≤ 2 ^ 26) (hvalid : ValidInsertions n s) (ha : Agrees n h s)
    (hr : r < n) (hcan : (s.members r).canExtract = true) :
    Agrees n h ({ s with number := Function.update s.number r (s.number r + 1) }.put r
      (.make n)) := by
  have hdone := ha.done r hr hcan
  have hleft := leaves hn hle hvalid ha hr hdone
  obtain ⟨got, rest, d, hfeed, hstation⟩ := ha.station r hr
  obtain ⟨hlocal, hclosed⟩ := done_closed hn hle hvalid ha hr hfeed hstation hdone
  obtain ⟨-, -, hrest⟩ := arrived_perm hn hle hvalid ha hr hfeed hstation hclosed
  obtain ⟨-, hwaiting, -⟩ := hstation.holds.emptied hdone
  let s' := { s with number := Function.update s.number r (s.number r + 1) }.put r (.make n)
  have hnumber : s'.number r = s.number r + 1 := Function.update_self _ _ _
  have hnumber' : ∀ q, q ≠ r → s'.number q = s.number q := fun q hqr =>
    Function.update_of_ne hqr _ _
  have hmembers : s'.members r = .make n := Function.update_self _ _ _
  have hmembers' : ∀ q, q ≠ r → s'.members q = s.members q := fun q hqr =>
    Function.update_of_ne hqr _ _
  have hfinished : ∀ e q, finishedIn s' e q = finishedIn s e q := by
    intro e q
    by_cases hqr : q = r
    · subst hqr
      rw [finishedIn, finishedIn, hnumber, hmembers, hlocal, Bool.eq_iff_iff]
      simp only [Members.make, Bool.and_false, Bool.or_false, Bool.and_true, Bool.or_eq_true,
        decide_eq_true_eq]
      omega
    · rw [finishedIn, finishedIn, hnumber' q hqr, hmembers' q hqr]
  have hproduced : ∀ e q, produced s' e q = produced s e q := fun e q => by
    rw [produced, produced, hfinished]
    rfl
  refine ⟨fun q hq => ?_, fun q hq hextract => ?_, fun q hq x hx => ?_, ha.sorted, ha.origin_lt,
    fun q hq e he => ?_, fun q hq e he => ?_⟩
  · by_cases hqr : q = r
    · subst hqr
      refine ⟨got, rest, .empty, hfeed, ?_⟩
      rw [StationOf, hmembers, hnumber]
      have hins : s'.insertions (s.number q + 1) q = [] := ha.later q hq _ (Nat.lt_succ_self _)
      rw [hins]
      refine ⟨Holds.make n q, ?_, ?_, hstation.links.outgoing, hstation.links.incoming,
        hstation.links.metadata_taken, ?_, ?_, ?_, .nil⟩
      · refine (of_number_eq_nil fun x hx => ?_).symm
        have hgot := hstation.links.got_le x hx
        omega
      · refine (of_number_eq_nil fun x hx => ?_).symm
        have hout := ha.number_le q hq x hx
        omega
      · obtain ⟨front, hfront, htaken⟩ := hstation.links.payload_taken
        rw [hwaiting, List.map_nil, List.append_nil] at hfront
        exact ⟨front, by simpa [Desk.empty] using hfront, htaken⟩
      · intro x hx
        exact (hstation.links.got_le x hx).trans (Nat.le_succ _)
      · intro x hx
        have hlow := hstation.links.rest_le x hx
        have hne : x.1 ≠ s.number q := by
          intro heq
          have hmem : x.2 ∈ ofNumber (s.number q) rest :=
            List.mem_map.mpr ⟨x, List.mem_filter.mpr ⟨hx, by simp [heq]⟩, rfl⟩
          rw [hrest] at hmem
          cases hmem
        omega
    · obtain ⟨got', rest', d', hfeed', hold⟩ := ha.station q hq
      refine ⟨got', rest', d', hfeed', ?_⟩
      rw [StationOf, hmembers' q hqr, hnumber' q hqr]
      exact hold
  · by_cases hqr : q = r
    · subst hqr
      rw [hmembers] at hextract
      cases hextract
    · rw [hmembers' q hqr] at hextract ⊢
      exact ha.done q hq hextract
  · have hold := ha.number_le q hq x hx
    by_cases hqr : q = r
    · subst hqr
      rw [hnumber]
      omega
    · rw [hnumber' q hqr]
      exact hold
  · have hold : Left n h s e q := by
      by_cases hqr : q = r
      · subst hqr
        rw [hnumber] at he
        rcases Nat.lt_succ_iff_lt_or_eq.mp he with hlt | rfl
        · exact ha.left q hq e hlt
        · exact hleft
      · rw [hnumber' q hqr] at he
        exact ha.left q hq e he
    exact hold.congr hq (fun o _ => hproduced e o) (fun o _ hfin => by rw [hfinished]; exact hfin)
      rfl rfl
  · refine ha.later q hq e ?_
    by_cases hqr : q = r
    · subst hqr
      rw [hnumber] at he
      omega
    · rw [hnumber' q hqr] at he
      exact he

end Agrees

/-- What is inserted stays inserted. -/
theorem step_insertions {l : Label} (hok : step n l s = .ok s') (e q : Nat) :
    ∃ more, s'.insertions e q = s.insertions e q ++ more := by
  cases l with
  | insert r sequence d memType =>
      obtain ⟨a, -, hs⟩ := bind_eq_ok.mp hok
      cases pure_eq_ok.mp hs
      simp only [Ranks.put, Ranks.logInsertion]
      split
      · exact ⟨_, rfl⟩
      · exact ⟨[], (List.append_nil _).symm⟩
  | insertFinished r =>
      simp only [step] at hok
      split at hok
      · cases hok
      · cases pure_eq_ok.mp hok
        exact ⟨[], (List.append_nil _).symm⟩
  | eventLoop r env =>
      simp only [step] at hok
      split at hok
      · cases hok
      · obtain ⟨x, -, hs⟩ := bind_eq_ok.mp hok
        cases pure_eq_ok.mp hs
        exact ⟨[], (List.append_nil _).symm⟩
  | start r =>
      simp only [step] at hok
      split at hok
      · cases pure_eq_ok.mp hok
        exact ⟨[], (List.append_nil _).symm⟩
      · cases hok

theorem ValidInsertions.of_step {l : Label} (hvalid : ValidInsertions n s')
    (hok : step n l s = .ok s') : ValidInsertions n s := by
  refine ⟨fun e r hr => ?_, fun e r hr y hy => ?_⟩
  · obtain ⟨more, hmore⟩ := step_insertions hok e r
    have hlength := hvalid.length_lt e r hr
    rw [hmore, List.length_append] at hlength
    omega
  · obtain ⟨more, hmore⟩ := step_insertions hok e r
    exact hvalid.sequence_lt e r hr y (by rw [hmore]; exact List.mem_append_left _ hy)

/-- Every step keeps the agreement. -/
theorem step_agrees {l : Label} (hn : 1 < n) (hle : n ≤ 2 ^ 26) (ha : Agrees n h s)
    (hl : l.rank < n) (hok : step n l s = .ok s') (hvalid : ValidInsertions n s') :
    ∃ h', Agrees n h' s' := by
  have hvalid₀ := hvalid.of_step hok
  cases l with
  | insert r sequence d memType => exact ⟨h, ha.insert hn hle hvalid₀ hvalid hl hok⟩
  | insertFinished r => exact ⟨h, ha.insert_finished hn hle hvalid₀ hl hok⟩
  | eventLoop r env =>
      simp only [step] at hok
      split at hok
      · cases hok
      · obtain ⟨⟨a, c⟩, heq, hs⟩ := bind_eq_ok.mp hok
        cases pure_eq_ok.mp hs
        exact ha.event_loop hn hle hvalid₀ hl heq
  | start r =>
      simp only [step] at hok
      split at hok
      · next hcan =>
          cases pure_eq_ok.mp hok
          exact ⟨h, ha.start hn hle hvalid₀ hl hcan⟩
      · cases hok

/-- The agreement holds in every reachable state. -/
theorem reachable_agrees (hn : 1 < n) (hle : n ≤ 2 ^ 26) (hs : (system n).Reachable s)
    (hvalid : ValidInsertions n s) : ∃ h, Agrees n h s := by
  have hinv : ValidInsertions n s → ∃ h, Agrees n h s := by
    refine hs.invariant (I := fun s => ValidInsertions n s → ∃ h, Agrees n h s) ?_ ?_
    · rintro s rfl -
      exact ⟨_, .initial n⟩
    · rintro s l s' ih ⟨hl, hok⟩ hvalid
      obtain ⟨h, ha⟩ := ih (hvalid.of_step hok)
      exact step_agrees hn hle ha hl hok hvalid
  exact hinv hvalid

end Rapidsmpf.AllGather
