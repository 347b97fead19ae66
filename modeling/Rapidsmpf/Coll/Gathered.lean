import Rapidsmpf.Coll.GatherChain

/-!
# What an AllGather delivers

`Gathered` says what holds of a rank whose `event_loop` has returned `Done`: it can extract what
was inserted on all ranks, each contribution once, and it has sent on all that its successor does
not have from elsewhere. `gathers` is the result, for any number of ranks that fits the 26 bits
which a chunk id has for them.
-/

namespace Rapidsmpf.AllGather

open Protocol Coll Circular Fallible

variable {n r q e : Nat} {h : Nat → List (Nat × Msg)} {s s' : Ranks}

/-- An insertion on its way. -/
def Insertion.item (q : Nat) (x : Insertion) : Item :=
  ⟨chunkId x.sequence q, x.metadata, x.payload⟩

/-- What was inserted on all ranks. -/
def contributions (n : Nat) (s : Ranks) (e : Nat) : List Item :=
  (List.range n).flatMap fun q => (s.insertions e q).map (Insertion.item q)

/-- The messages of one AllGather that were sent on a link, with their payloads. -/
structure Sent (s : Ranks) (link : Rank × Rank) (e : Nat) (msgs : List Msg) : Prop where
  metadata : ((s.comm.metadata link).sent.filter fun x => x.1 = e).map Prod.snd =
    msgs.map Msg.serialize
  payload : ((s.comm.payload link).sent.filter fun x => x.1 = e).map (fun x => x.2.bytes) =
    (msgs.filterMap Msg.item?).map Item.payload

/-- A rank has gathered all that was inserted anywhere, and has passed on all that its successor
needs. -/
structure Gathered (n : Nat) (s : Ranks) (r : Nat) : Prop where
  finished : ∀ q < n, finishedIn s (s.number r) q = true
  extraction : ∃ items,
    List.Forall₂ (fun c item => Chunk.Says c (.data item)) (s.members r).forExtraction items ∧
      items.Perm (contributions n s (s.number r))
  goalpost : (s.members r).extractionGoalpost = (contributions n s (s.number r)).length
  forwarded : ∃ msgs, Sent s (r, succ n r) (s.number r) msgs ∧
    msgs.Perm (union (produced s (s.number r)) (others n (succ n r)))

/-! ## Items among messages -/

@[simp] theorem item_data (item : Item) : (Msg.data item).item? = some item := rfl

@[simp] theorem item_finish (id : Nat) : (Msg.finish id).item? = none := rfl

theorem filter_map_item_data (items : List Item) :
    (items.map Msg.data).filterMap Msg.item? = items := by
  induction items with
  | nil => rfl
  | cons item items ih => rw [List.map_cons, List.filterMap_cons_some (item_data item), ih]

theorem filter_map_item_filter (l : List Msg) :
    (l.filter fun m => !m.isFinish).filterMap Msg.item? = l.filterMap Msg.item? := by
  induction l with
  | nil => rfl
  | cons m l ih =>
      cases m with
      | data item =>
          rw [List.filter_cons_of_pos rfl, List.filterMap_cons_some (item_data item),
            List.filterMap_cons_some (item_data item), ih]
      | finish id =>
          rw [List.filter_cons_of_neg (by simp [Msg.isFinish]),
            List.filterMap_cons_none (item_finish id), ih]

theorem filter_map_item_produced (r : Nat) (ins : List Insertion) (finished : Bool) :
    (producedBy r ins finished).filterMap Msg.item? = ins.map (Insertion.item r) := by
  have hdata : (ins.map fun x => Msg.data ⟨chunkId x.sequence r, x.metadata, x.payload⟩) =
      (ins.map (Insertion.item r)).map Msg.data := by
    rw [List.map_map]
    rfl
  rw [producedBy, List.filterMap_append, hdata, filter_map_item_data]
  split
  · exact List.append_nil _
  · exact List.append_nil _

/-- The contributions are those of a rank and those of the others. -/
theorem contributions_perm (hr : r < n) (e : Nat) :
    ((produced s e r).filterMap Msg.item? ++
      (union (produced s e) (others n r)).filterMap Msg.item?).Perm (contributions n s e) := by
  have hitems : ∀ ranks : List Nat, (union (produced s e) ranks).filterMap Msg.item? =
      ranks.flatMap fun q => (s.insertions e q).map (Insertion.item q) := by
    intro ranks
    rw [union, List.filterMap_flatMap]
    exact List.flatMap_congr fun q _ => filter_map_item_produced q _ _
  have hsplit : (r :: others n r).Perm (List.range n) := by
    refine (List.perm_ext_iff_of_nodup ?_ List.nodup_range).mpr fun q => ?_
    · exact List.nodup_cons.mpr ⟨fun hmem => (mem_others.mp hmem).2 rfl, others_nodup n r⟩
    · rw [List.mem_cons, mem_others, List.mem_range]
      constructor
      · rintro (rfl | ⟨hlt, -⟩)
        · exact hr
        · exact hlt
      · intro hlt
        by_cases heq : q = r
        · exact .inl heq
        · exact .inr ⟨hlt, heq⟩
  rw [hitems, produced, filter_map_item_produced, contributions]
  have hflat := hsplit.flatMap_right fun q => (s.insertions e q).map (Insertion.item q)
  rwa [List.flatMap_cons] at hflat

/-! ## Messages on a link -/

/-- Pairs that agree, agree under each key. -/
theorem map_filter_key {α β γ : Type} {l : List (Nat × α)} {l' : List (Nat × β)} {f : α → γ}
    {g : β → γ} (heq : l.map (fun x => (x.1, f x.2)) = l'.map fun x => (x.1, g x.2)) (e : Nat) :
    (l.filter fun x => x.1 = e).map (fun x => f x.2) =
      (l'.filter fun x => x.1 = e).map fun x => g x.2 := by
  have hfilter := congrArg (fun k : List (Nat × γ) => (k.filter fun x => x.1 = e).map Prod.snd) heq
  simp only [List.filter_map, List.map_map] at hfilter
  exact hfilter

theorem items_of_number (e : Nat) (l : List (Nat × Msg)) :
    ((itemsOf l).filter fun x => x.1 = e).map (fun x => x.2) =
      (ofNumber e l).filterMap Msg.item? := by
  induction l with
  | nil => rfl
  | cons x l ih =>
      obtain ⟨e', m⟩ := x
      have hcons : (e', m) :: l = [(e', m)] ++ l := rfl
      rw [hcons, items_of_append, of_number_append, List.filter_append, List.map_append, ih,
        List.filterMap_append]
      congr 1
      by_cases heq : e' = e
      · subst heq
        rw [of_number_single]
        cases m with
        | data item => simp [itemsOf]
        | finish id => rfl
      · have hnone : ofNumber e [(e', m)] = [] := by simp [ofNumber, heq]
        rw [hnone]
        cases m with
        | data item => simp [itemsOf, heq]
        | finish id => rfl

/-- The messages of one AllGather among those of a feed. -/
theorem Feed.sent {link : Rank × Rank} {l : List (Nat × Msg)} (hfeed : Feed s.comm link l)
    (e : Nat) : Sent s link e (ofNumber e l) := by
  constructor
  · have hmap : ((s.comm.metadata link).sent.map fun x => (x.1, x.2)) =
        l.map fun x => (x.1, x.2.serialize) := by
      rw [← hfeed.metadata]
      exact List.map_id _
    refine (map_filter_key (f := id) hmap e).trans ?_
    rw [ofNumber, List.map_map]
    rfl
  · refine (map_filter_key hfeed.payload e).trans ?_
    rw [← items_of_number, List.map_map]
    rfl

/-! ## Several ranks -/

theorem Agrees.gathered (hn : 1 < n) (hle : n ≤ 2 ^ 26) (hvalid : ValidInsertions n s)
    (ha : Agrees n h s) (hr : r < n) (hcan : (s.members r).canExtract = true) :
    Gathered n s r := by
  have hdone := ha.done r hr hcan
  obtain ⟨got, rest, d, hfeed, hstation⟩ := ha.station r hr
  obtain ⟨-, hclosed⟩ := ha.done_closed hn hle hvalid hr hfeed hstation hdone
  obtain ⟨harrived, -, -⟩ := ha.arrived_perm hn hle hvalid hr hfeed hstation hclosed
  obtain ⟨hbox, hwaiting, hposted, hsending, -, hgoalpost⟩ := hstation.holds.emptied hdone
  have hproduced : d.produced = produced s (s.number r) r := by
    rw [hstation.holds.produced, produced, finishedIn]
    simp
  have hperm : d.extraction.Perm (contributions n s (s.number r)) := by
    have hexpected : d.expected = [] := by
      rw [Desk.expected, hwaiting, hposted]
      rfl
    have hdata := (hstation.holds.balanced.extraction_perm hbox hexpected hsending).filterMap
      Msg.item?
    rw [filter_map_item_data, filter_map_item_filter, List.filterMap_append, hproduced] at hdata
    exact (hdata.trans ((harrived.filterMap Msg.item?).append_left _)).trans
      (contributions_perm hr (s.number r))
  refine ⟨(ha.leaves hn hle hvalid hr hdone).finished, ⟨d.extraction, ?_, hperm⟩,
    hgoalpost.trans hperm.length_eq, ⟨ofNumber (s.number r) (h r), ?_, ?_⟩⟩
  · exact hstation.holds.extraction
  · exact hstation.links.outgoing.sent (s.number r)
  · exact ha.forwarded_perm hn hle hvalid hr hfeed hstation hdone

/-! ## A single rank -/

/-- The lists of a single rank: what can be extracted, the finish messages that were counted, and
what is in the box are what the application put in. -/
structure Alone (ins : List Insertion) (items : List Item) (done : List Nat) (box : List Msg)
    (a : Members) : Prop where
  extraction : List.Forall₂ (fun c item => Chunk.Says c (.data item)) a.forExtraction items
  inserted : List.Forall₂ Chunk.Says a.inserted box
  kept : (items.map Msg.data ++ done.map Msg.finish ++ box).Perm
    (producedBy 0 ins a.locallyFinished)
  counter : a.finishCounter + done.length = 1
  nlocal : a.nlocalInsertions = ins.length % 2 ^ 32

section Alone

variable {ins : List Insertion} {items : List Item} {done : List Nat} {box : List Msg}
  {a a' : Members} {m : Msg} {chunk : Chunk}

theorem Alone.make : Alone [] [] [] [] (.make 1) := ⟨.nil, .nil, .refl _, rfl, rfl⟩

/-- The application puts in a message. -/
theorem Alone.put (ha : Alone ins items done box a) (hmsg : chunk.Says m)
    {ins' : List Insertion} {fin' : Bool} {nlocal : Nat}
    (hproduced : producedBy 0 ins a.locallyFinished ++ [m] = producedBy 0 ins' fin')
    (hnlocal : nlocal = ins'.length % 2 ^ 32) : Alone ins' items done (box ++ [m]) { a with
      inserted := a.inserted ++ [chunk], nlocalInsertions := nlocal, locallyFinished := fin' } where
  extraction := ha.extraction
  inserted := List.rel_append ha.inserted (.cons hmsg .nil)
  kept := by
    show (items.map Msg.data ++ done.map Msg.finish ++ (box ++ [m])).Perm (producedBy 0 ins' fin')
    rw [← hproduced, ← List.append_assoc]
    exact ha.kept.append_right [m]
  counter := ha.counter
  nlocal := hnlocal

/-- `insert`. -/
theorem Alone.insert {sequence : Nat} {pd : Shuffle.PackedData} {memType : MemoryType}
    (ha : Alone ins items done box a)
    (hok : AllGather.insert 1 0 sequence pd memType a = .ok a') :
    a.locallyFinished = false ∧ a'.canExtract = a.canExtract ∧
      ∃ box', Alone (ins ++ [⟨sequence, pd.metadata, pd.data.bytes⟩]) items done box' a' := by
  simp only [AllGather.insert, insertChunk, Nat.lt_irrefl, if_false] at hok
  split at hok
  case isTrue => cases hok
  case isFalse hopen =>
      split at hok
      case isTrue => cases hok
      case isFalse =>
          have hopen : a.locallyFinished = false := by simpa using hopen
          cases pure_eq_ok.mp hok
          refine ⟨hopen, rfl, _, ha.put (m := .data ⟨chunkId sequence 0, pd.metadata,
            pd.data.bytes⟩) ⟨rfl, rfl, rfl, rfl⟩ ?_ ?_⟩
          · rw [hopen]
            simp [producedBy]
          · rw [ha.nlocal]
            simp

/-- `insert_finished`. -/
theorem Alone.insert_finished (ha : Alone ins items done box a)
    (hopen : a.locallyFinished = false) :
    ∃ box', Alone ins items done box' (insertFinished 0 a) := by
  have hmsg : (Chunk.fromEmpty a.nlocalInsertions 0 none).Says
      (.finish (chunkId (ins.length % 2 ^ 32) 0)) := by
    rw [ha.nlocal]
    exact ⟨rfl, rfl, rfl, rfl⟩
  have hproduced : producedBy 0 ins a.locallyFinished ++
      [.finish (chunkId (ins.length % 2 ^ 32) 0)] = producedBy 0 ins true := by
    rw [hopen]
    simp [producedBy]
  exact ⟨_, ha.put hmsg hproduced ha.nlocal⟩

/-- The loop over `inserted_.extract()`: every chunk is counted or can be extracted. -/
theorem Alone.deliver_all {chunks : List Chunk} (ha : Alone ins items done box { a with
      inserted := chunks }) :
    ∃ items' done', Alone ins items' done' [] (chunks.foldl (fun a chunk =>
      if chunk.isFinish then markFinish chunk.sequence a
      else { a with forExtraction := a.forExtraction ++ [chunk] }) { a with inserted := [] }) := by
  induction chunks generalizing items done box a with
  | nil =>
      obtain rfl := List.forall₂_nil_left_iff.mp ha.inserted
      exact ⟨items, done, ha⟩
  | cons chunk chunks ih =>
      obtain ⟨m, box, hmsg, hrest, rfl⟩ := List.forall₂_cons_left_iff.mp ha.inserted
      have hfinish := hmsg.is_finish_eq
      rw [List.foldl_cons]
      cases m with
      | data item =>
          have hno : ¬ chunk.isFinish = true := by
            rw [hfinish]
            exact Bool.false_ne_true
          rw [if_neg hno]
          have hextract : Alone ins (items ++ [item]) done box { a with
              inserted := chunks, forExtraction := a.forExtraction ++ [chunk] } := by
            refine ⟨List.rel_append ha.extraction (.cons hmsg .nil), hrest, ?_, ha.counter,
              ha.nlocal⟩
            refine List.Perm.trans ?_ ha.kept
            rw [List.map_append, List.append_assoc, List.append_assoc, List.append_assoc]
            refine List.Perm.append_left _ ?_
            show (Msg.data item :: (done.map Msg.finish ++ box)).Perm _
            exact List.perm_middle.symm
          exact ih (a := { a with forExtraction := a.forExtraction ++ [chunk] }) hextract
      | finish id =>
          have hyes : chunk.isFinish = true := hfinish
          rw [if_pos hyes]
          have hcount : Alone ins items (done ++ [id]) box
              { markFinish chunk.sequence a with inserted := chunks } := by
            refine ⟨ha.extraction, hrest, ?_, ?_, ha.nlocal⟩
            · refine List.Perm.trans (List.Perm.of_eq ?_) ha.kept
              simp
            · have hcounter := ha.counter
              simp only [markFinish, List.length_append, List.length_singleton] at hcounter ⊢
              omega
          exact ih (a := markFinish chunk.sequence a) hcount

/-- A single rank that is done has all that it inserted. -/
theorem Alone.done_perm (ha : Alone ins items done box a) (hdone : isDone a = true) :
    a.locallyFinished = true ∧ items.Perm (ins.map (Insertion.item 0)) ∧
      a.extractionGoalpost = items.length := by
  simp only [isDone, Bool.and_eq_true, decide_eq_true_eq, List.isEmpty_iff] at hdone
  obtain ⟨⟨hcounter, hgoalpost⟩, -, hinserted⟩ := hdone
  have hbox := ha.inserted
  rw [hinserted] at hbox
  obtain rfl := List.forall₂_nil_left_iff.mp hbox
  have hone : done.length = 1 := by
    have hcount := ha.counter
    omega
  have hkept := ha.kept
  rw [List.append_nil] at hkept
  refine ⟨?_, ?_, hgoalpost.trans ha.extraction.length_eq⟩
  · -- the finish message that was counted was put in
    obtain ⟨id, hid⟩ := List.length_eq_one_iff.mp hone
    have hmem : Msg.finish id ∈ producedBy 0 ins a.locallyFinished := by
      refine hkept.subset (List.mem_append_right _ ?_)
      rw [hid]
      exact List.mem_singleton_self _
    rcases List.mem_append.mp hmem with hmem | hmem
    · obtain ⟨x, -, heq⟩ := List.mem_map.mp hmem
      cases heq
    · by_contra hopen
      rw [if_neg hopen] at hmem
      cases hmem
  · have hitems := hkept.filterMap Msg.item?
    have hnone : (done.map Msg.finish).filterMap Msg.item? = [] := by
      rw [List.filterMap_map]
      exact List.filterMap_eq_nil_iff.mpr fun id _ => rfl
    rwa [List.filterMap_append, filter_map_item_data, hnone, List.append_nil,
      filter_map_item_produced] at hitems

end Alone

/-- What every run of a single rank keeps. -/
structure Solo (s : Ranks) : Prop where
  comm : s.comm = .empty
  alone : ∃ items done box, Alone (s.insertions (s.number 0) 0) items done box (s.members 0)
  done : (s.members 0).canExtract = true → isDone (s.members 0) = true
  later : ∀ e, s.number 0 < e → s.insertions e 0 = []

/-- An application that has not finished is not done. -/
theorem Solo.not_done (h : Solo s) (hopen : (s.members 0).locallyFinished = false) :
    (s.members 0).canExtract = false := by
  by_contra hcan
  obtain ⟨items, done, box, ha⟩ := h.alone
  have hfinished := (ha.done_perm (h.done (by simpa using hcan))).1
  rw [hopen] at hfinished
  cases hfinished

theorem solo_step {l : Label} (h : Solo s) (hl : l.rank < 1) (hok : step 1 l s = .ok s') :
    Solo s' := by
  obtain ⟨items, done, box, ha⟩ := h.alone
  have hrank : l.rank = 0 := Nat.lt_one_iff.mp hl
  cases l with
  | insert r sequence d memType =>
      obtain rfl : r = 0 := hrank
      obtain ⟨a', hinsert, hs⟩ := bind_eq_ok.mp hok
      cases pure_eq_ok.mp hs
      obtain ⟨hopen, hextract, box', ha'⟩ := ha.insert hinsert
      refine ⟨h.comm, ⟨items, done, box', ?_⟩, fun hcan => ?_, fun e he => ?_⟩
      · simpa [Ranks.put, Ranks.logInsertion] using ha'
      · simp only [Ranks.put, Function.update_self] at hcan
        rw [hextract, h.not_done hopen] at hcan
        cases hcan
      · have hne : e ≠ s.number 0 := Nat.ne_of_gt he
        simpa [Ranks.put, Ranks.logInsertion, hne] using h.later e he
  | insertFinished r =>
      obtain rfl : r = 0 := hrank
      simp only [step] at hok
      split at hok
      · cases hok
      · next hopen =>
          have hopen : (s.members 0).locallyFinished = false := by simpa using hopen
          cases pure_eq_ok.mp hok
          obtain ⟨box', ha'⟩ := ha.insert_finished hopen
          refine ⟨h.comm, ⟨items, done, box', ?_⟩, fun hcan => ?_, h.later⟩
          · simpa [Ranks.put] using ha'
          · simp only [Ranks.put, Function.update_self, insertFinished] at hcan
            rw [h.not_done hopen] at hcan
            cases hcan
  | eventLoop r env =>
      obtain rfl : r = 0 := hrank
      simp only [step] at hok
      split at hok
      · cases hok
      · obtain ⟨⟨a, c⟩, hloop, hs⟩ := bind_eq_ok.mp hok
        cases pure_eq_ok.mp hs
        rw [eventLoop, if_pos rfl] at hloop
        obtain ⟨⟨a₁, c₁⟩, hlocal, hfinal⟩ := bind_eq_ok.mp hloop
        cases pure_eq_ok.mp hlocal
        cases pure_eq_ok.mp hfinal
        obtain ⟨items', done', ha'⟩ := ha.deliver_all
        refine ⟨h.comm, ⟨items', done', [], ?_⟩, fun hcan => ?_, h.later⟩
        · simp only [Ranks.put, Function.update_self]
          exact ⟨ha'.extraction, ha'.inserted, ha'.kept, ha'.counter, ha'.nlocal⟩
        · simp only [Ranks.put, Function.update_self] at hcan ⊢
          exact hcan
  | start r =>
      obtain rfl : r = 0 := hrank
      simp only [step] at hok
      split at hok
      · cases pure_eq_ok.mp hok
        refine ⟨h.comm, ⟨[], [], [], ?_⟩, fun hcan => ?_, fun e he => ?_⟩
        · have hnone : s.insertions (s.number 0 + 1) 0 = [] := h.later _ (Nat.lt_succ_self _)
          simpa [Ranks.put, hnone] using Alone.make
        · simp [Ranks.put, Members.make] at hcan
        · simp only [Ranks.put, Function.update_self] at he
          exact h.later e (Nat.lt_of_succ_lt he)
      · cases hok

theorem reachable_solo (hs : (system 1).Reachable s) : Solo s := by
  refine hs.invariant (I := Solo) (fun s hs => ?_) fun s l s' h hstep => ?_
  · subst hs
    exact ⟨rfl, ⟨[], [], [], Alone.make⟩, fun hcan => (by cases hcan), fun _ _ => rfl⟩
  · obtain ⟨hl, hok⟩ := hstep
    exact solo_step h hl hok

theorem Solo.gathered (h : Solo s) (hcan : (s.members 0).canExtract = true) : Gathered 1 s 0 := by
  obtain ⟨items, done, box, ha⟩ := h.alone
  obtain ⟨hfinished, hperm, hgoalpost⟩ := ha.done_perm (h.done hcan)
  have hall : contributions 1 s (s.number 0) =
      (s.insertions (s.number 0) 0).map (Insertion.item 0) := List.append_nil _
  refine ⟨fun q hq => ?_, ⟨items, ha.extraction, ?_⟩, ?_, ⟨[], ?_, .refl _⟩⟩
  · obtain rfl : q = 0 := Nat.lt_one_iff.mp hq
    rw [finishedIn, hfinished]
    simp
  · rw [hall]
    exact hperm
  · rw [hall, hgoalpost]
    exact hperm.length_eq
  · constructor
    · rw [h.comm]
      rfl
    · rw [h.comm]
      rfl

/-- When `event_loop` returned `Done`, the rank can extract every contribution of every rank, once
each and with its metadata and payload; all that it had to pass on was sent, and the goalpost is the
number of insertions. -/
theorem gathers (hpos : 1 ≤ n) (hle : n ≤ 2 ^ 26) (hs : (system n).Reachable s)
    (hvalid : ValidInsertions n s) (hr : r < n) (hdone : (s.members r).canExtract = true) :
    Gathered n s r := by
  rcases Nat.eq_or_lt_of_le hpos with rfl | hn
  · obtain rfl : r = 0 := Nat.lt_one_iff.mp hr
    exact (reachable_solo hs).gathered hdone
  · obtain ⟨h, ha⟩ := reachable_agrees hn hle hs hvalid
    exact ha.gathered hn hle hvalid hr hdone

theorem run_reachable {ls : List Label} (hs : (system n).Reachable s)
    (hls : ∀ l ∈ ls, l.rank < n) (hrun : run (step n) ls s = .ok s') : (system n).Reachable s' :=
  System.Reach.run hs (fun l hl _ _ hstep => ⟨trivial, hls l hl, hstep⟩) hrun

/-- Everything is ready and has arrived, and the first send is complete. -/
def settled : Env where
  written := fun _ => true
  arrived := 3
  memType := fun _ => .host
  allocated := fun _ => true
  received := []
  sent := [0]
  sendsCompleted := 3

/-- Both ranks insert a contribution, and the rank 0 is done when it has that of the rank 1. -/
def firstDone : List Label :=
  [.insert 0 5 ⟨[1], .singleton .host 7⟩ .host, .insert 1 2 ⟨[], .singleton .host 9⟩ .host,
    .insertFinished 1, .insertFinished 0, .eventLoop 1 { settled with sent := [] },
    .eventLoop 0 { settled with received := [0] }]

/-- What was inserted in it. -/
def firstInsertions (e : Nat) (q : Rank) : List Insertion :=
  if e = 0 ∧ q = 1 then (if e = 0 ∧ q = 0 then [⟨5, [1], [7]⟩] else []) ++ [⟨2, [], [9]⟩]
  else if e = 0 ∧ q = 0 then [⟨5, [1], [7]⟩] else []

/-- One insertion on all ranks is valid. -/
theorem valid_single {x : Insertion} (hsequence : x.sequence < 2 ^ 38)
    (hs : s.insertions = fun e q => if e = 0 ∧ q = r then [x] else []) : ValidInsertions n s := by
  constructor
  · intro e q _
    rw [hs]
    dsimp only
    split <;> simp
  · intro e q _ y hy
    rw [hs] at hy
    dsimp only at hy
    split at hy
    · rw [List.mem_singleton.mp hy]
      exact hsequence
    · cases hy

theorem valid_first {s : Ranks} (h : s.insertions = firstInsertions) : ValidInsertions 2 s := by
  constructor
  · intro e q _
    rw [h, firstInsertions]
    split_ifs <;> simp
  · intro e q _ y hy
    rw [h, firstInsertions] at hy
    have hcases : y = ⟨5, [1], [7]⟩ ∨ y = ⟨2, [], [9]⟩ := by
      split_ifs at hy <;> simp only [List.mem_append, List.mem_singleton, List.not_mem_nil] at hy
      · exact hy
      · exact .inr (hy.resolve_left id)
      · exact .inl hy
    rcases hcases with rfl | rfl
    · show 5 < 2 ^ 38
      decide
    · show 2 < 2 ^ 38
      decide

/-- The rank 0 has its own contribution and that of the rank 1. -/
theorem gathers_two : ∃ s, (system 2).Reachable s ∧ Gathered 2 s 0 ∧
    contributions 2 s 0 = [⟨5, [1], [7]⟩, ⟨2 ^ 38 + 2, [], [9]⟩] := by
  obtain ⟨s, hrun, hcan, hinsertions⟩ :
      ∃ s, run (step 2) firstDone (.initial 2) = .ok s ∧ (s.members 0).canExtract = true ∧
        s.insertions = firstInsertions :=
    ⟨_, rfl, rfl, rfl⟩
  have hs : (system 2).Reachable s := run_reachable (.of_init rfl) (by decide) hrun
  refine ⟨s, hs, gathers (by decide) (by decide) hs (valid_first hinsertions) (by decide) hcan, ?_⟩
  rw [contributions, hinsertions]
  rfl

end Rapidsmpf.AllGather
