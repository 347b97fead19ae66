import Mathlib
import Rapidsmpf.Lib.Fallible
import Rapidsmpf.Lib.ListFacts
import Rapidsmpf.Shuffle.System

/-!
# No chunk of a shuffle is lost or duplicated

What a state knows of its chunks, one structure for each place they can be in, and what each step
does to it. `Placed` says what the finish counter and the boxes of a rank know of the chunks placed
there, `Stream` describes the chunks one rank created for another one (its data, then one control
message that counts them and itself), and `Base` adds the conservation law: what was placed at a
rank, is in flight to it and is still queued for it is what all ranks created for it.
-/

namespace Rapidsmpf.Shuffle

open Protocol Fallible

variable {cfg : Config} {q r : Rank} {c : Chunk} {sh sh' : Shuffler} {s s' : Ranks}

/-! ## What one call does -/

theorem move_goalpost_eq {src nchunks : Nat} {f f' : FinishCounter}
    (h : f.moveGoalpost src nchunks = .ok f') :
    ∃ reported, f' = { f with
      rankReported := reported
      nRanksWithGoalpost := f.nRanksWithGoalpost + 1
      totalChunkGoal := (f.totalChunkGoal + nchunks) % 2 ^ 64 } := by
  unfold FinishCounter.moveGoalpost at h
  split at h
  · cases h
  split at h
  · cases h
  split at h
  · cases h
  exact ⟨_, (pure_eq_ok.mp h).symm⟩

/-- Placing a chunk changes the finish counter or the box of its partition. -/
theorem insert_into_received_cases (h : insertIntoReceived c sh = .ok sh') :
    (0 < c.expectedNumChunks ∧ ∃ reported, sh' = { sh with finishCounter :=
        { sh.finishCounter with
          rankReported := reported
          nRanksWithGoalpost := sh.finishCounter.nRanksWithGoalpost + 1
          totalChunkGoal := (sh.finishCounter.totalChunkGoal + c.expectedNumChunks) % 2 ^ 64 } })
      ∨ (c.expectedNumChunks = 0 ∧ sh' = { sh with
        received := Function.update sh.received c.partId (sh.received c.partId ++ [c]) }) := by
  unfold insertIntoReceived Chunk.isControlMessage at h
  split at h
  case isTrue hcontrol =>
      obtain ⟨f, hf, hsh⟩ := bind_eq_ok.mp h
      obtain ⟨reported, rfl⟩ := move_goalpost_eq hf
      exact Or.inl ⟨of_decide_eq_true hcontrol, reported, (pure_eq_ok.mp hsh).symm⟩
  case isFalse hdata =>
      have hzero : c.expectedNumChunks = 0 := by simpa using hdata
      exact Or.inr ⟨hzero, (pure_eq_ok.mp h).symm⟩

/-- Inserting a chunk counts it, and then places or queues it. -/
theorem insert_chunk_cases (h : insertChunk cfg q c sh = .ok sh') :
    (cfg.partitionOwner c.partId = q
        ∧ insertIntoReceived c (countOutbound (cfg.partitionOwner c.partId) c sh) = .ok sh')
      ∨ (cfg.partitionOwner c.partId ≠ q
        ∧ sh' = { countOutbound (cfg.partitionOwner c.partId) c sh with
          toSend := sh.toSend ++ [c] }) := by
  unfold insertChunk at h
  simp only at h
  split at h
  · cases h
  split at h
  case isTrue hlocal => exact Or.inl ⟨hlocal, h⟩
  case isFalse hremote =>
      refine Or.inr ⟨hremote, ?_⟩
      rw [← pure_eq_ok.mp h]
      unfold countOutbound
      split <;> rfl

theorem insert_cases {pid : PartID} {d : PackedData} {memType : MemoryType}
    (h : insert cfg q pid d memType sh = .ok sh') :
    (d.empty = true ∧ sh' = sh)
      ∨ (d.empty = false ∧ insertChunk cfg q (insertedChunk q pid d memType sh)
        (getNewCid q sh).2 = .ok sh') := by
  unfold insert at h
  split at h
  · cases h
  split at h
  case isTrue hempty => exact Or.inl ⟨hempty, (pure_eq_ok.mp h).symm⟩
  case isFalse hempty => exact Or.inr ⟨by simpa using hempty, h⟩

theorem insert_finished_for_cases (h : insertFinishedFor cfg q r sh = .ok sh') :
    (representativePid cfg r = cfg.totalNumPartitions ∧ sh' = sh)
      ∨ (representativePid cfg r < cfg.totalNumPartitions
        ∧ cfg.partitionOwner (representativePid cfg r) = r
        ∧ insertChunk cfg q (finishChunk cfg q r sh) (getNewCid q sh).2 = .ok sh') := by
  unfold insertFinishedFor at h
  rcases representative_pid_eq cfg r with ⟨hnone, -⟩ | ⟨hrep, howner⟩
  · rw [if_pos hnone, pure_eq_ok] at h
    exact Or.inl ⟨hnone, h.symm⟩
  · rw [if_neg hrep.ne] at h
    exact Or.inr ⟨hrep, howner, h⟩

/-! ## The chunks placed at one rank -/

/-- The data chunks of a partition among some chunks. -/
def dataOf (p : PartID) (l : List Chunk.Info) : List Chunk.Info :=
  l.filter fun i => i.expectedNumChunks = 0 ∧ i.partId = p

/-- The control messages among some chunks. -/
def controls (l : List Chunk.Info) : List Chunk.Info :=
  l.filter fun i => 0 < i.expectedNumChunks

/-- What the control messages among some chunks announce altogether. -/
def announcedChunks (l : List Chunk.Info) : Nat :=
  (l.map Chunk.Info.expectedNumChunks).sum

/-- What the finish counter and the boxes of the rank `r` know of the chunks placed there, while
`pending` calls of `add_finished_chunk` are due. -/
structure Placed (cfg : Config) (r : Rank) (sh : Shuffler) (extracted : PartID → List Chunk)
    (pending : Nat) (placed : List Chunk.Info) : Prop where
  nranks : sh.finishCounter.nranks = if localPartitions cfg r = [] then 0 else cfg.nranks
  goalposts : sh.finishCounter.nRanksWithGoalpost = (controls placed).length
  goal : sh.finishCounter.totalChunkGoal = announcedChunks placed % 2 ^ 64
  pending_le : pending ≤ placed.length
  finished : sh.finishCounter.totalFinishedChunks = (placed.length - pending) % 2 ^ 64
  boxes : ∀ p, (extracted p ++ sh.received p).map Chunk.info = dataOf p placed

section Placed

variable {extracted : PartID → List Chunk} {pending : Nat} {placed : List Chunk.Info}

theorem Placed.initial (cfg : Config) (r : Rank) :
    Placed cfg r (.initial cfg r) (fun _ => []) 0 [] := by
  refine ⟨?_, rfl, rfl, le_refl _, rfl, fun _ => rfl⟩
  cases h : localPartitions cfg r with
  | nil => simp [Shuffler.initial, FinishCounter.make, h]
  | cons p l => simp [Shuffler.initial, FinishCounter.make, h]

/-- Only the finish counter and the boxes matter. -/
theorem Placed.congr (h : Placed cfg r sh extracted pending placed)
    (hcounter : sh'.finishCounter = sh.finishCounter) (hreceived : sh'.received = sh.received) :
    Placed cfg r sh' extracted pending placed := by
  refine ⟨?_, ?_, ?_, h.pending_le, ?_, ?_⟩
  · rw [hcounter, h.nranks]
  · rw [hcounter, h.goalposts]
  · rw [hcounter, h.goal]
  · rw [hcounter, h.finished]
  · rw [hreceived]
    exact h.boxes

/-- Placing one more chunk. -/
theorem Placed.place (h : Placed cfg r sh extracted pending placed)
    (hplace : insertIntoReceived c sh = .ok sh') :
    Placed cfg r sh' extracted (pending + 1) (placed ++ [c.info]) := by
  have hexpected : c.info.expectedNumChunks = c.expectedNumChunks := rfl
  have hle : pending + 1 ≤ (placed ++ [c.info]).length := by
    simpa using h.pending_le
  have hlength : (placed ++ [c.info]).length - (pending + 1) = placed.length - pending := by
    simp
  rcases insert_into_received_cases hplace with ⟨hcontrol, reported, rfl⟩ | ⟨hdata, rfl⟩
  · refine ⟨h.nranks, ?_, ?_, hle, ?_, fun p => ?_⟩
    · simp [controls, hexpected, hcontrol, h.goalposts]
    · simp [announcedChunks, hexpected, h.goal]
    · rw [hlength]
      exact h.finished
    · have hne : c.info.expectedNumChunks ≠ 0 := hcontrol.ne'
      rw [h.boxes p, dataOf, dataOf, List.filter_append]
      simp [hne]
  · refine ⟨h.nranks, ?_, ?_, hle, ?_, fun p => ?_⟩
    · simp [controls, hexpected, hdata, h.goalposts]
    · simp [announcedChunks, hexpected, hdata, h.goal]
    · rw [hlength]
      exact h.finished
    · have hzero : c.info.expectedNumChunks = 0 := hdata
      have hpart : c.info.partId = c.partId := rfl
      rw [dataOf, List.filter_append, ← dataOf, ← h.boxes p]
      by_cases hp : c.partId = p
      · subst hp
        simp [hzero, hpart]
      · simp [hpart, hp, Function.update_of_ne (Ne.symm hp)]

/-- A call of `add_finished_chunk` that was due. -/
theorem Placed.add_finished (h : Placed cfg r sh extracted pending placed) (hdue : pending ≠ 0)
    (hadd : addFinishedChunk sh = .ok sh') :
    Placed cfg r sh' extracted (pending - 1) placed := by
  obtain ⟨f, hf, hsh⟩ := bind_eq_ok.mp hadd
  unfold FinishCounter.addFinishedChunk at hf
  simp only at hf
  split at hf
  case isFalse => cases hf
  case isTrue =>
      cases pure_eq_ok.mp hsh
      cases pure_eq_ok.mp hf
      have hle := h.pending_le
      refine ⟨h.nranks, h.goalposts, h.goal, by omega, ?_, h.boxes⟩
      show (sh.finishCounter.totalFinishedChunks + 1) % 2 ^ 64 = _
      rw [h.finished, Nat.mod_add_mod]
      congr 1
      omega

/-- `extract` of one partition. -/
theorem Placed.extract (h : Placed cfg r sh extracted pending placed) (pid : PartID) :
    Placed cfg r { sh with received := Function.update sh.received pid [] }
      (Function.update extracted pid (extracted pid ++ sh.received pid)) pending placed := by
  refine ⟨h.nranks, h.goalposts, h.goal, h.pending_le, h.finished, fun p => ?_⟩
  rw [← h.boxes p]
  by_cases hp : p = pid
  · subst hp
    simp
  · simp [hp]

end Placed

/-! ## The chunks one rank created for another one -/

/-- Whether `insert_finished` is past the rank `r`. -/
def Phase.announced : Phase → Rank → Prop
  | inserting, _ => False
  | finishing next, r => r < next
  | finished, _ => True

/-- The bytes a chunk says. -/
def Chunk.Info.content (i : Chunk.Info) : Bytes × Bytes := (i.metadata, i.payload)

/-- The chunks a rank created for the rank `r`: its data, then, once it announced them, one
control message that counts them and itself. -/
structure Stream (cfg : Config) (r : Rank) (created : List Chunk.Info) (phase : Phase)
    (outbound : Nat) (inserted : PartID → List (Bytes × Bytes)) : Prop where
  counted : ∃ data control, created = data ++ control ∧ (∀ i ∈ data, i.expectedNumChunks = 0)
    ∧ outbound = data.length
    ∧ (control = []
      ∨ phase.announced r ∧ ∃ i, control = [i] ∧ i.expectedNumChunks = data.length + 1)
  owner : ∀ i ∈ created, cfg.partitionOwner i.partId = r
  inserted : ∀ p, cfg.partitionOwner p = r →
    inserted p = (dataOf p created).map Chunk.Info.content

section Stream

variable {created : List Chunk.Info} {phase phase' : Phase} {outbound : Nat}
  {inserted : PartID → List (Bytes × Bytes)} {i : Chunk.Info}

theorem Stream.initial (cfg : Config) (r : Rank) :
    Stream cfg r [] .inserting 0 (fun _ => []) :=
  ⟨⟨[], [], rfl, by simp, rfl, Or.inl rfl⟩, by simp, fun _ _ => rfl⟩

/-- A later phase, and data inserted for other ranks. -/
theorem Stream.later {inserted' : PartID → List (Bytes × Bytes)}
    (h : Stream cfg r created phase outbound inserted)
    (hphase : phase.announced r → phase'.announced r)
    (hinserted : ∀ p, cfg.partitionOwner p = r → inserted' p = inserted p) :
    Stream cfg r created phase' outbound inserted' := by
  refine ⟨?_, h.owner, fun p hp => (hinserted p hp).trans (h.inserted p hp)⟩
  obtain ⟨data, control, heq, hdata, hout, hcontrol⟩ := h.counted
  exact ⟨data, control, heq, hdata, hout, hcontrol.imp_right fun hc => ⟨hphase hc.1, hc.2⟩⟩

/-- As long as nothing was announced there is only data. -/
theorem Stream.only_data (h : Stream cfg r created phase outbound inserted)
    (hphase : ¬ phase.announced r) :
    (∀ i ∈ created, i.expectedNumChunks = 0) ∧ outbound = created.length := by
  obtain ⟨data, control, rfl, hdata, hout, rfl | ⟨hannounced, _⟩⟩ := h.counted
  · simpa using ⟨hdata, hout⟩
  · exact absurd hannounced hphase

/-- One more data chunk. -/
theorem Stream.insert_data (h : Stream cfg r created phase outbound inserted)
    (hphase : ¬ phase.announced r) (hexpected : i.expectedNumChunks = 0)
    (howner : cfg.partitionOwner i.partId = r) (hlt : (created ++ [i]).length < 2 ^ 64) :
    Stream cfg r (created ++ [i]) phase ((outbound + 1) % 2 ^ 64)
      (fun p => if p = i.partId then inserted p ++ [i.content] else inserted p) := by
  obtain ⟨hdata, hout⟩ := h.only_data hphase
  refine ⟨⟨created ++ [i], [], by simp, ?_, ?_, Or.inl rfl⟩, ?_, fun p hp => ?_⟩
  · intro j hj
    rcases List.mem_append.mp hj with hj | hj
    · exact hdata j hj
    · rw [List.mem_singleton.mp hj, hexpected]
  · rw [List.length_append, List.length_singleton] at hlt ⊢
    rw [hout, Nat.mod_eq_of_lt hlt]
  · intro j hj
    rcases List.mem_append.mp hj with hj | hj
    · exact h.owner j hj
    · rw [List.mem_singleton.mp hj, howner]
  · simp only [dataOf, List.filter_append, List.map_append, h.inserted p hp]
    by_cases hpart : p = i.partId
    · simp [hpart, hexpected]
    · simp [hpart, Ne.symm hpart]

/-- The control message. -/
theorem Stream.announce (h : Stream cfg r created phase outbound inserted)
    (hphase : ¬ phase.announced r) (hphase' : phase'.announced r)
    (hexpected : i.expectedNumChunks = (outbound + 1) % 2 ^ 64)
    (howner : cfg.partitionOwner i.partId = r) (hlt : (created ++ [i]).length < 2 ^ 64) :
    Stream cfg r (created ++ [i]) phase' outbound inserted := by
  obtain ⟨hdata, hout⟩ := h.only_data hphase
  have hcount : i.expectedNumChunks = created.length + 1 := by
    rw [List.length_append, List.length_singleton] at hlt
    rw [hexpected, hout, Nat.mod_eq_of_lt hlt]
  refine ⟨⟨created, [i], rfl, hdata, hout, Or.inr ⟨hphase', i, rfl, hcount⟩⟩, ?_, fun p hp => ?_⟩
  · intro j hj
    rcases List.mem_append.mp hj with hj | hj
    · exact h.owner j hj
    · rw [List.mem_singleton.mp hj, howner]
  · simp [dataOf, List.filter_append, h.inserted p hp, hcount]

/-- There is at most one control message. -/
theorem Stream.controls_le (h : Stream cfg r created phase outbound inserted) :
    (controls created).length ≤ 1 := by
  obtain ⟨data, control, rfl, hdata, -, hcontrol⟩ := h.counted
  have hnone : controls data = [] := by
    rw [controls, List.filter_eq_nil_iff]
    intro i hi
    simp [hdata i hi]
  rw [controls, List.filter_append, ← controls, hnone]
  rcases hcontrol with rfl | ⟨-, i, rfl, -⟩
  · simp
  · simpa using List.length_filter_le _ [i]

/-- With its control message the chunks are counted. -/
theorem Stream.announced_chunks (h : Stream cfg r created phase outbound inserted)
    (hcontrol : controls created ≠ []) :
    phase.announced r ∧ announcedChunks created = created.length := by
  obtain ⟨data, control, rfl, hdata, -, rfl | ⟨hphase, i, rfl, hcount⟩⟩ := h.counted
  · refine absurd ?_ hcontrol
    rw [controls, List.filter_eq_nil_iff]
    intro i hi
    simp [hdata i (by simpa using hi)]
  · have hzero : announcedChunks data = 0 := by
      rw [announcedChunks, List.sum_eq_zero_iff]
      intro x hx
      obtain ⟨j, hj, rfl⟩ := List.mem_map.mp hx
      exact hdata j hj
    refine ⟨hphase, ?_⟩
    rw [announcedChunks, List.map_append, List.sum_append, ← announcedChunks, hzero]
    simp [hcount]

end Stream

/-! ## Conservation of chunks -/

/-- The chunks a shuffler has queued for the rank `r`. -/
def queuedFor (cfg : Config) (r : Rank) (l : List Chunk) : List Chunk.Info :=
  (l.filter fun c => cfg.partitionOwner c.partId = r).map Chunk.info

/-- What the chunk of a message says. -/
def messageInfo (m : Exchange.Message) : Chunk.Info :=
  (Chunk.deserialize m.metadata .host m.data).info

/-- The chunks all ranks have queued for the rank `r`. -/
def queued (cfg : Config) (s : Ranks) (r : Rank) : Multiset Chunk.Info :=
  ∑ q ∈ Finset.range cfg.nranks, (queuedFor cfg r (s.shuffler q).toSend : Multiset Chunk.Info)

/-- The chunks in flight to the rank `r`. -/
def flying (s : Ranks) (r : Rank) : Multiset Chunk.Info :=
  ((s.inFlight r).map messageInfo : List Chunk.Info)

/-- The chunks all ranks created for the rank `r`. -/
def createdFor (cfg : Config) (s : Ranks) (r : Rank) : Multiset Chunk.Info :=
  ∑ q ∈ Finset.range cfg.nranks, (s.created q r : Multiset Chunk.Info)

/-- What is in the shufflers and in flight: the counters agree with the chunks placed, the chunks
queued and in flight are well formed, and no chunk was lost or duplicated. -/
structure Base (cfg : Config) (s : Ranks) : Prop where
  placed : ∀ r < cfg.nranks,
    Placed cfg r (s.shuffler r) (s.extracted r) (s.pending r) (s.placed r)
  queueValid : ∀ q < cfg.nranks, ∀ c ∈ (s.shuffler q).toSend, c.Valid
  inFlight : ∀ r < cfg.nranks, ∀ m ∈ s.inFlight r, ∃ c : Chunk, c.Valid
    ∧ m = convertChunkToMessage cfg c
  link : ∀ r < cfg.nranks, (s.placed r : Multiset Chunk.Info) + flying s r + queued cfg s r
    = createdFor cfg s r

/-- The chunk of a sent message. -/
theorem message_info_convert (h : c.Valid) :
    messageInfo (convertChunkToMessage cfg c) = c.info :=
  Chunk.deserialize_serialize h rfl .host

/-- The chunk of a delivered message is the one that was sent. -/
theorem chunk_of_message_eq {memType : MemoryType} {c' : Chunk} (h : c.Valid)
    (hc : chunkOfMessage cfg r memType { convertChunkToMessage cfg c with
      data := deliveredData memType (convertChunkToMessage cfg c).data } = .ok c') :
    c'.info = c.info := by
  unfold chunkOfMessage at hc
  simp only at hc
  split at hc
  case isFalse => cases hc
  case isTrue =>
      rw [← pure_eq_ok.mp hc]
      apply Chunk.deserialize_serialize h
      show ((deliveredData memType c.data).map Buffer.bytes).getD []
        = (c.data.map Buffer.bytes).getD []
      cases c.data with
      | none => rfl
      | some b =>
          by_cases hpos : 0 < b.size
          · simp [deliveredData, hpos]
          · have hnil : b.bytes = [] := by simpa [Buffer.size] using hpos
            simp [deliveredData, hpos, hnil]

/-- The outbound counter is no part of it. -/
theorem count_outbound_eq (dst : Rank) (c : Chunk) (sh : Shuffler) :
    ∃ counter, countOutbound dst c sh = { sh with outboundChunkCounter := counter } := by
  unfold countOutbound
  split
  · exact ⟨_, rfl⟩
  · exact ⟨_, rfl⟩

theorem queued_for_append (cfg : Config) (r : Rank) (l l' : List Chunk) :
    queuedFor cfg r (l ++ l') = queuedFor cfg r l ++ queuedFor cfg r l' := by
  simp [queuedFor]

theorem created_for_log (hq : q < cfg.nranks) (dst : Rank) (i : Chunk.Info) :
    createdFor cfg (s.logCreated q dst i) r
      = createdFor cfg s r + if r = dst then {i} else 0 := by
  refine ListFacts.sum_eq_add (Finset.mem_range.mpr hq) ?_ fun a _ ha => ?_
  · by_cases hr : r = dst
    · simp [Ranks.logCreated, hr, ← Multiset.coe_add]
    · simp [Ranks.logCreated, hr]
  · simp [Ranks.logCreated, ha]

theorem queued_put (hq : q < cfg.nranks) {x : Multiset Chunk.Info}
    (hsh : (queuedFor cfg r sh.toSend : Multiset Chunk.Info)
      = queuedFor cfg r (s.shuffler q).toSend + x) :
    queued cfg (s.put q sh) r = queued cfg s r + x := by
  refine ListFacts.sum_eq_add (Finset.mem_range.mpr hq) ?_ fun a _ ha => ?_
  · simpa [Ranks.put] using hsh
  · simp [Ranks.put, ha]

/-- A shuffler whose queue did not change. -/
theorem queued_put_same (hq : q < cfg.nranks) (hsh : sh.toSend = (s.shuffler q).toSend) :
    queued cfg (s.put q sh) r = queued cfg s r := by
  rw [queued_put hq (x := 0) (by rw [hsh, add_zero]), add_zero]

theorem insert_into_received_queue (h : insertIntoReceived c sh = .ok sh') :
    sh'.toSend = sh.toSend := by
  rcases insert_into_received_cases h with ⟨-, reported, rfl⟩ | ⟨-, rfl⟩
  · rfl
  · rfl

namespace Base

theorem initial (cfg : Config) : Base cfg (.initial cfg) where
  placed := fun r _ => .initial cfg r
  queueValid := fun _ _ _ hc => nomatch hc
  inFlight := fun _ _ _ hm => nomatch hm
  link := fun r _ => by
    simp [Ranks.initial, Shuffler.initial, queuedFor, flying, queued, createdFor]

/-- Only the shuffler of the rank `q` changed, and it keeps its queue. -/
theorem queue_update (h : Base cfg s) (hqueue : sh.toSend = (s.shuffler q).toSend) :
    ∀ a < cfg.nranks, ∀ c ∈ ((s.put q sh).shuffler a).toSend, c.Valid := by
  intro a ha
  by_cases haq : a = q
  · subst haq
    simpa [Ranks.put, hqueue] using h.queueValid a ha
  · simpa [Ranks.put, haq] using h.queueValid a ha

/-- The rank `q` created a chunk and placed it itself. -/
theorem create_local (h : Base cfg s) (hq : q < cfg.nranks)
    (howner : cfg.partitionOwner c.partId = q)
    (hcounter : sh.finishCounter = (s.shuffler q).finishCounter)
    (hreceived : sh.received = (s.shuffler q).received)
    (hqueue : sh.toSend = (s.shuffler q).toSend)
    (hplace : insertIntoReceived c sh = .ok sh') :
    Base cfg ((s.logInsert cfg q c).put q sh') := by
  have hqueue' : sh'.toSend = (s.shuffler q).toSend :=
    (insert_into_received_queue hplace).trans hqueue
  have hlog : s.logInsert cfg q c = (s.logCreated q q c.info).logPlaced q c.info := by
    simp [Ranks.logInsert, howner]
  rw [hlog]
  refine ⟨fun a ha => ?_, h.queue_update hqueue', h.inFlight, fun a ha => ?_⟩
  · by_cases haq : a = q
    · subst haq
      simpa [Ranks.put, Ranks.logPlaced, Ranks.logCreated] using
        ((h.placed a ha).congr hcounter hreceived).place hplace
    · simpa [Ranks.put, Ranks.logPlaced, Ranks.logCreated, haq] using h.placed a ha
  · have hcreated := created_for_log (s := s) (r := a) hq q c.info
    have hqueued := queued_put_same (s := s) (r := a) hq hqueue'
    show ((Function.update s.placed q (s.placed q ++ [c.info]) a : List Chunk.Info)
      : Multiset Chunk.Info) + flying s a + queued cfg (s.put q sh') a
        = createdFor cfg (s.logCreated q q c.info) a
    rw [hcreated, hqueued, ← h.link a ha]
    by_cases haq : a = q
    · subst haq
      simp only [Function.update_self, ← Multiset.coe_add, if_true, Multiset.coe_singleton]
      abel
    · simp [haq]

/-- The rank `q` created a chunk for another rank and queued it. -/
theorem create_remote (h : Base cfg s) (hq : q < cfg.nranks) (hvalid : c.Valid)
    (howner : cfg.partitionOwner c.partId ≠ q)
    (hcounter : sh.finishCounter = (s.shuffler q).finishCounter)
    (hreceived : sh.received = (s.shuffler q).received)
    (hqueue : sh.toSend = (s.shuffler q).toSend ++ [c]) :
    Base cfg ((s.logInsert cfg q c).put q sh) := by
  have hlog : s.logInsert cfg q c = s.logCreated q (cfg.partitionOwner c.partId) c.info := by
    simp [Ranks.logInsert, howner]
  rw [hlog]
  refine ⟨fun a ha => ?_, fun a ha => ?_, h.inFlight, fun a ha => ?_⟩
  · by_cases haq : a = q
    · subst haq
      simpa [Ranks.put, Ranks.logCreated] using (h.placed a ha).congr hcounter hreceived
    · simpa [Ranks.put, Ranks.logCreated, haq] using h.placed a ha
  · by_cases haq : a = q
    · subst haq
      intro b hb
      rw [show ((s.logCreated _ _ _).put a sh).shuffler a = sh by simp [Ranks.put], hqueue] at hb
      rcases List.mem_append.mp hb with hb | hb
      · exact h.queueValid a ha b hb
      · rw [List.mem_singleton.mp hb]
        exact hvalid
    · simpa [Ranks.put, Ranks.logCreated, haq] using h.queueValid a ha
  · have hcreated := created_for_log (s := s) (r := a) hq (cfg.partitionOwner c.partId) c.info
    have hqueued : queued cfg (s.put q sh) a
        = queued cfg s a + if a = cfg.partitionOwner c.partId then {c.info} else 0 := by
      apply queued_put hq
      rw [hqueue, queued_for_append, ← Multiset.coe_add]
      congr 1
      by_cases ha : a = cfg.partitionOwner c.partId
      · simp [queuedFor, ha]
      · simp [queuedFor, ha, Ne.symm ha]
    show (s.placed a : Multiset Chunk.Info) + flying s a + queued cfg (s.put q sh) a
      = createdFor cfg (s.logCreated q (cfg.partitionOwner c.partId) c.info) a
    rw [hcreated, hqueued, ← h.link a ha]
    exact (add_assoc _ _ _).symm

/-- The rank `q` called `insert(Chunk)`. -/
theorem create (h : Base cfg s) (hq : q < cfg.nranks) (hvalid : c.Valid)
    (hcounter : sh.finishCounter = (s.shuffler q).finishCounter)
    (hreceived : sh.received = (s.shuffler q).received)
    (hqueue : sh.toSend = (s.shuffler q).toSend) (hinsert : insertChunk cfg q c sh = .ok sh') :
    Base cfg ((s.logInsert cfg q c).put q sh') := by
  obtain ⟨counter, hcount⟩ := count_outbound_eq (cfg.partitionOwner c.partId) c sh
  rcases insert_chunk_cases hinsert with ⟨howner, hplace⟩ | ⟨howner, rfl⟩
  · rw [hcount] at hplace
    refine h.create_local hq howner ?_ ?_ ?_ hplace
    · exact hcounter
    · exact hreceived
    · exact hqueue
  · refine h.create_remote hq hvalid howner ?_ ?_ (by rw [hqueue])
    · rw [hcount]
      exact hcounter
    · rw [hcount]
      exact hreceived

/-- The messages of submitted chunks for one rank. -/
theorem filter_convert (chunks : List Chunk) (hvalid : ∀ c ∈ chunks, c.Valid) :
    ((chunks.map (convertChunkToMessage cfg)).filter (fun m => m.peerRank = r)).map messageInfo
      = queuedFor cfg r chunks := by
  rw [List.filter_map, List.map_map]
  apply List.map_congr_left
  intro c hc
  exact message_info_convert (hvalid c (List.mem_of_mem_filter hc))

/-- The progress thread of the rank `q` submitted the chunks that were ready. -/
theorem submit (h : Base cfg s) (hq : q < cfg.nranks) (k : Nat)
    {inFlight : Rank → List Exchange.Message}
    (hinFlight : ∀ r, inFlight r = s.inFlight r
      ++ (((s.shuffler q).toSend.take k).map (convertChunkToMessage cfg)).filter
        fun m => m.peerRank = r) :
    Base cfg ({ s with inFlight := inFlight }.put q (extractReady k (s.shuffler q)).2) := by
  have hvalid := h.queueValid q hq
  refine ⟨fun a ha => ?_, fun a ha => ?_, fun a ha m hm => ?_, fun a ha => ?_⟩
  · by_cases haq : a = q
    · subst haq
      have hsame : Placed cfg a (extractReady k (s.shuffler a)).2 (s.extracted a) (s.pending a)
          (s.placed a) := (h.placed a ha).congr rfl rfl
      simpa [Ranks.put] using hsame
    · simpa [Ranks.put, haq] using h.placed a ha
  · by_cases haq : a = q
    · subst haq
      intro c hc
      rw [show ((Ranks.put a _ _).shuffler a) = (extractReady k (s.shuffler a)).2 by
        simp [Ranks.put]] at hc
      exact hvalid c (List.mem_of_mem_drop hc)
    · simpa [Ranks.put, haq] using h.queueValid a ha
  · change m ∈ inFlight a at hm
    rw [hinFlight a] at hm
    rcases List.mem_append.mp hm with hm | hm
    · exact h.inFlight a ha m hm
    · obtain ⟨c, hc, rfl⟩ := List.mem_map.mp (List.mem_of_mem_filter hm)
      exact ⟨c, hvalid c (List.mem_of_mem_take hc), rfl⟩
  · let ready := (s.shuffler q).toSend.take k
    let rest := (extractReady k (s.shuffler q)).2
    have hsplit : (queuedFor cfg a (s.shuffler q).toSend : Multiset Chunk.Info)
        = queuedFor cfg a rest.toSend + queuedFor cfg a ready := by
      rw [add_comm, Multiset.coe_add, ← queued_for_append]
      exact congrArg _ (congrArg _ (List.take_append_drop k _).symm)
    have hback : queued cfg s a
        = queued cfg (s.put q rest) a + (queuedFor cfg a ready : Multiset Chunk.Info) := by
      refine ListFacts.sum_eq_add (Finset.mem_range.mpr hq) ?_ fun b _ hb => ?_
      · simpa [Ranks.put] using hsplit
      · simp [Ranks.put, hb]
    have hflying : flying ({ s with inFlight := inFlight }.put q rest) a
        = flying s a + (queuedFor cfg a ready : Multiset Chunk.Info) := by
      show ((inFlight a).map messageInfo : Multiset Chunk.Info) = _
      rw [hinFlight a, List.map_append, filter_convert ready fun c hc =>
        hvalid c (List.mem_of_mem_take hc), ← Multiset.coe_add]
      rfl
    rw [hflying]
    show (s.placed a : Multiset Chunk.Info) + _ + queued cfg (s.put q rest) a = createdFor cfg s a
    rw [← h.link a ha, hback]
    abel

/-- A message was delivered to the rank `r` and its chunk placed. -/
theorem deliver (h : Base cfg s) (hr : r < cfg.nranks) {position : Nat} {memType : MemoryType}
    {m : Exchange.Message} (hm : (s.inFlight r)[position]? = some m)
    (hchunk : chunkOfMessage cfg r memType { m with data := deliveredData memType m.data } = .ok c)
    (hplace : insertIntoReceived c (s.shuffler r) = .ok sh') :
    Base cfg (({ s with
      inFlight := Function.update s.inFlight r ((s.inFlight r).eraseIdx position) }.logPlaced r
        c.info).put r sh') := by
  obtain ⟨hposition, hget⟩ := List.getElem?_eq_some_iff.mp hm
  obtain ⟨sent, hvalid, rfl⟩ := h.inFlight r hr m (List.mem_of_getElem? hm)
  have hinfo : c.info = sent.info := chunk_of_message_eq hvalid hchunk
  refine ⟨fun a ha => ?_, h.queue_update (insert_into_received_queue hplace), fun a ha m hm => ?_,
    fun a ha => ?_⟩
  · by_cases har : a = r
    · subst har
      simpa [Ranks.put, Ranks.logPlaced] using (h.placed a ha).place hplace
    · simpa [Ranks.put, Ranks.logPlaced, har] using h.placed a ha
  · by_cases har : a = r
    · subst har
      apply h.inFlight a ha m
      simp only [Ranks.put, Ranks.logPlaced, Function.update_self] at hm
      exact List.mem_of_mem_eraseIdx hm
    · simp only [Ranks.put, Ranks.logPlaced, Function.update_of_ne har] at hm
      exact h.inFlight a ha m hm
  · have hqueued := queued_put_same (s := s) (r := a) hr (insert_into_received_queue hplace)
    show ((Function.update s.placed r (s.placed r ++ [c.info]) a : List Chunk.Info)
      : Multiset Chunk.Info)
        + ((Function.update s.inFlight r ((s.inFlight r).eraseIdx position) a).map messageInfo
          : List Chunk.Info) + queued cfg (s.put r sh') a = createdFor cfg s a
    rw [hqueued, ← h.link a ha]
    by_cases har : a = r
    · subst har
      have herase : flying s a = {c.info}
          + (((s.inFlight a).eraseIdx position).map messageInfo : List Chunk.Info) := by
        rw [hinfo, ← message_info_convert hvalid, Multiset.singleton_add, flying,
          Multiset.cons_coe, Multiset.coe_eq_coe, ← hget]
        simpa using ((List.getElem_cons_eraseIdx_perm hposition).map messageInfo).symm
      simp only [Function.update_self, herase, ← Multiset.coe_add, Multiset.coe_singleton]
      abel
    · simp only [Function.update_of_ne har]
      rfl

/-- A change at one rank that moves no chunk. -/
theorem quiet (h : Base cfg s) (hq : q < cfg.nranks) (hshuffler : s'.shuffler = s.shuffler)
    (hflight : s'.inFlight = s.inFlight) (hcreated : s'.created = s.created)
    (hplaced : s'.placed = s.placed)
    (hothers : ∀ a, a ≠ q → s'.extracted a = s.extracted a ∧ s'.pending a = s.pending a)
    (hself : Placed cfg q sh (s'.extracted q) (s'.pending q) (s.placed q))
    (hqueue : sh.toSend = (s.shuffler q).toSend) : Base cfg (s'.put q sh) := by
  have hput : (s'.put q sh).shuffler = (s.put q sh).shuffler := by
    simp [Ranks.put, hshuffler]
  refine ⟨fun a ha => ?_, fun a ha => ?_, fun a ha => ?_, fun a ha => ?_⟩
  · by_cases haq : a = q
    · subst haq
      simpa [Ranks.put, hplaced] using hself
    · simpa [Ranks.put, haq, hplaced, hshuffler, hothers a haq] using h.placed a ha
  · rw [hput]
    exact h.queue_update hqueue a ha
  · rw [show (s'.put q sh).inFlight a = s.inFlight a from congrFun hflight a]
    exact h.inFlight a ha
  · have hqueued : queued cfg (s'.put q sh) a = queued cfg s a := by
      rw [queued, hput]
      exact queued_put_same hq hqueue
    rw [hqueued, flying, createdFor, show (s'.put q sh).inFlight = s.inFlight from hflight,
      show (s'.put q sh).created = s.created from hcreated,
      show (s'.put q sh).placed = s.placed from hplaced]
    exact h.link a ha

end Base

end Rapidsmpf.Shuffle
