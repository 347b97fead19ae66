import Rapidsmpf.Shuffle.Conservation

/-!
# A shuffle delivers every chunk exactly once

The invariant `Inv` of all ranks adds the streams between them to the conservation law. When a
rank has heard from all ranks its goal is the number of chunks created for it, so that
`all_finished` leaves nothing on its way: `exactly_once`. The counters are 64 bits wide; the last
section is a run in which they wrap around.
-/

namespace Rapidsmpf.Shuffle

open Protocol Fallible

variable {cfg : Config} {q r : Rank} {c : Chunk} {sh sh' : Shuffler} {s s' : Ranks}

/-! ## The invariant of all ranks -/

/-- The invariant: no chunk is lost or duplicated, and the chunks a rank created for another one
are counted, as long as their number fits the counters. -/
structure Inv (cfg : Config) (s : Ranks) : Prop where
  base : Base cfg s
  stream : ∀ q < cfg.nranks, ∀ r < cfg.nranks, (s.created q r).length < 2 ^ 64 →
    Stream cfg r (s.created q r) (s.phase q) ((s.shuffler q).outboundChunkCounter r)
      (s.inserted q)

theorem get_new_cid_lt (q : Rank) (sh : Shuffler) : (getNewCid q sh).1 < 2 ^ 64 :=
  Nat.or_lt_two_pow (Nat.mod_lt _ (by decide)) (Nat.mod_lt _ (by decide))

theorem inserted_chunk_valid (q : Rank) {pid : PartID} (hpid : pid < cfg.totalNumPartitions)
    (d : PackedData) (memType : MemoryType) (sh : Shuffler) :
    (insertedChunk q pid d memType sh).Valid where
  chunkId_lt := get_new_cid_lt q sh
  partId_lt := hpid.trans cfg.partitions_lt
  expected_lt := Nat.two_pow_pos 64
  metadataSize_lt := Nat.mod_lt _ (Nat.two_pow_pos 32)
  dataSize_eq := rfl

theorem finish_chunk_valid (q : Rank) (hrep : representativePid cfg r < cfg.totalNumPartitions)
    (sh : Shuffler) : (finishChunk cfg q r sh).Valid where
  chunkId_lt := get_new_cid_lt q sh
  partId_lt := hrep.trans cfg.partitions_lt
  expected_lt := Nat.mod_lt _ (Nat.two_pow_pos 64)
  metadataSize_lt := Nat.two_pow_pos 32
  dataSize_eq := rfl

/-- Inserting a chunk counts it for its destination if it is data. -/
theorem insert_chunk_outbound (h : insertChunk cfg q c sh = .ok sh') :
    sh'.outboundChunkCounter
      = (countOutbound (cfg.partitionOwner c.partId) c sh).outboundChunkCounter := by
  rcases insert_chunk_cases h with ⟨-, hplace⟩ | ⟨-, rfl⟩
  · rcases insert_into_received_cases hplace with ⟨-, reported, rfl⟩ | ⟨-, rfl⟩
    · rfl
    · rfl
  · rfl

theorem count_outbound_data (hdata : c.expectedNumChunks = 0) (dst : Rank) :
    (countOutbound dst c sh).outboundChunkCounter = Function.update sh.outboundChunkCounter dst
      ((sh.outboundChunkCounter dst + 1) % 2 ^ 64) := by
  simp [countOutbound, Chunk.isControlMessage, hdata]

theorem count_outbound_control (hcontrol : 0 < c.expectedNumChunks) (dst : Rank) :
    (countOutbound dst c sh).outboundChunkCounter = sh.outboundChunkCounter := by
  simp [countOutbound, Chunk.isControlMessage, hcontrol]

theorem log_insert_eq (q : Rank) (c : Chunk) :
    s.logInsert cfg q c = if cfg.partitionOwner c.partId = q then
      (s.logCreated q (cfg.partitionOwner c.partId) c.info).logPlaced q c.info
      else s.logCreated q (cfg.partitionOwner c.partId) c.info :=
  rfl

/-- What `logInsert` records as created. -/
theorem created_log_insert (q : Rank) (c : Chunk) (a b : Rank) :
    (s.logInsert cfg q c).created a b
      = if a = q ∧ b = cfg.partitionOwner c.partId then s.created a b ++ [c.info]
        else s.created a b := by
  have hcreated : (s.logInsert cfg q c).created
      = (s.logCreated q (cfg.partitionOwner c.partId) c.info).created := by
    rw [log_insert_eq]
    split <;> rfl
  rw [hcreated]
  rfl

@[simp] theorem phase_log_insert (q : Rank) (c : Chunk) :
    (s.logInsert cfg q c).phase = s.phase := by
  rw [log_insert_eq]
  split <;> rfl

@[simp] theorem inserted_log_insert (q : Rank) (c : Chunk) :
    (s.logInsert cfg q c).inserted = s.inserted := by
  rw [log_insert_eq]
  split <;> rfl

@[simp] theorem shuffler_log_insert (q : Rank) (c : Chunk) :
    (s.logInsert cfg q c).shuffler = s.shuffler := by
  rw [log_insert_eq]
  split <;> rfl

namespace Inv

theorem initial (cfg : Config) : Inv cfg (.initial cfg) :=
  ⟨.initial cfg, fun _ _ r _ _ => .initial cfg r⟩

/-- The rank `q` inserted data. -/
theorem insert_data (h : Inv cfg s) (hq : q < cfg.nranks) {pid : PartID}
    (hpid : pid < cfg.totalNumPartitions) {d : PackedData} {memType : MemoryType}
    (hphase : s.phase q = .inserting)
    (hinsert : insertChunk cfg q (insertedChunk q pid d memType (s.shuffler q))
      (getNewCid q (s.shuffler q)).2 = .ok sh') :
    Inv cfg (((s.logInserted q pid d).logInsert cfg q
      (insertedChunk q pid d memType (s.shuffler q))).put q sh') := by
  have hvalid := inserted_chunk_valid q hpid d memType (s.shuffler q)
  have hbase : Base cfg (s.logInserted q pid d) :=
    ⟨h.base.placed, h.base.queueValid, h.base.inFlight, h.base.link⟩
  refine ⟨hbase.create hq hvalid ?_ ?_ ?_ hinsert, fun a ha b hb hlt => ?_⟩
  · rfl
  · rfl
  · rfl
  by_cases haq : a = q
  case neg =>
      simpa [Ranks.put, created_log_insert, Ranks.logInserted, haq] using
        h.stream a ha b hb (by
          simpa [Ranks.put, created_log_insert, Ranks.logInserted, haq] using hlt)
  subst haq
  have houtbound : sh'.outboundChunkCounter
      = Function.update (s.shuffler a).outboundChunkCounter (cfg.partitionOwner pid)
        (((s.shuffler a).outboundChunkCounter (cfg.partitionOwner pid) + 1) % 2 ^ 64) :=
    (insert_chunk_outbound hinsert).trans (count_outbound_data rfl _)
  by_cases hdst : b = cfg.partitionOwner pid
  · subst hdst
    have hcreated : ((s.logInserted a pid d).logInsert cfg a
        (insertedChunk a pid d memType (s.shuffler a))).created a (cfg.partitionOwner pid)
        = s.created a (cfg.partitionOwner pid)
          ++ [(insertedChunk a pid d memType (s.shuffler a)).info] := by
      rw [created_log_insert]
      exact if_pos ⟨rfl, rfl⟩
    change (((s.logInserted a pid d).logInsert cfg a _).created a _).length < _ at hlt
    rw [hcreated] at hlt
    have hold : (s.created a (cfg.partitionOwner pid)).length < 2 ^ 64 :=
      lt_of_le_of_lt (by simp) hlt
    have hnew := (h.stream a ha _ hb hold).insert_data (by rw [hphase]; exact id) rfl rfl hlt
    simp only [Ranks.put, hcreated, Function.update_self, houtbound, phase_log_insert,
      inserted_log_insert]
    refine hnew.later id fun p _ => ?_
    show (if a = a ∧ p = pid then _ else _) = if p = pid then _ else _
    by_cases hp : p = pid
    · simp only [hp, and_self, if_true]
      rfl
    · simp [hp]
  · have hcreated : ((s.logInserted a pid d).logInsert cfg a
        (insertedChunk a pid d memType (s.shuffler a))).created a b = s.created a b := by
      rw [created_log_insert]
      exact if_neg fun hdst' => hdst hdst'.2
    change (((s.logInserted a pid d).logInsert cfg a _).created a _).length < _ at hlt
    rw [hcreated] at hlt
    simp only [Ranks.put, hcreated, Function.update_self, houtbound, phase_log_insert,
      inserted_log_insert, Function.update_of_ne hdst]
    refine (h.stream a ha b hb hlt).later id fun p hp => ?_
    have hne : p ≠ pid := fun heq => hdst (by rw [← hp, heq])
    simp [Ranks.logInserted, hne]

/-- The rank `q` announced its chunks to the rank `r`. -/
theorem announce (h : Inv cfg s) (hq : q < cfg.nranks) (hphase : s.phase q = .finishing r)
    (hrep : representativePid cfg r < cfg.totalNumPartitions)
    (howner : cfg.partitionOwner (representativePid cfg r) = r)
    (hinsert : insertChunk cfg q (finishChunk cfg q r (s.shuffler q))
      (getNewCid q (s.shuffler q)).2 = .ok sh') :
    Inv cfg (({ s with phase := Function.update s.phase q (.finishing (r + 1)) }.logInsert cfg q
      (finishChunk cfg q r (s.shuffler q))).put q sh') := by
  have hvalid := finish_chunk_valid q hrep (s.shuffler q)
  have hdst : cfg.partitionOwner (finishChunk cfg q r (s.shuffler q)).partId = r := howner
  let s₁ : Ranks := { s with phase := Function.update s.phase q (.finishing (r + 1)) }
  have hbase : Base cfg s₁ :=
    ⟨h.base.placed, h.base.queueValid, h.base.inFlight, h.base.link⟩
  refine ⟨hbase.create hq hvalid ?_ ?_ ?_ hinsert, fun a ha b hb hlt => ?_⟩
  · rfl
  · rfl
  · rfl
  by_cases haq : a = q
  case neg =>
      simpa [Ranks.put, created_log_insert, haq] using
        h.stream a ha b hb (by simpa [Ranks.put, created_log_insert, haq] using hlt)
  subst haq
  have hlater : ∀ b, (s.phase a).announced b → (Phase.finishing (r + 1)).announced b := by
    intro b hb'
    rw [hphase] at hb'
    exact lt_trans hb' (Nat.lt_succ_self r)
  change ((s₁.logInsert cfg a _).created a b).length < _ at hlt
  show Stream cfg b ((s₁.logInsert cfg a _).created a b) ((s₁.logInsert cfg a _).phase a)
    (((Ranks.put a sh' _).shuffler a).outboundChunkCounter b)
    ((s₁.logInsert cfg a _).inserted a)
  have hcreated : (s₁.logInsert cfg a (finishChunk cfg a r (s.shuffler a))).created a b
      = if b = r then s.created a b ++ [(finishChunk cfg a r (s.shuffler a)).info]
        else s.created a b := by
    rw [created_log_insert, hdst]
    simp [s₁]
  have hold : (s.created a b).length < 2 ^ 64 := by
    refine lt_of_le_of_lt ?_ hlt
    rw [hcreated]
    split
    · simp
    · exact le_refl _
  have hstream := h.stream a ha b hb hold
  rw [hcreated] at hlt ⊢
  simp only [Ranks.put, Function.update_self, phase_log_insert, inserted_log_insert,
    insert_chunk_outbound hinsert, s₁]
  by_cases hbr : b = r
  · subst hbr
    rw [if_pos rfl] at hlt ⊢
    have hphase' : ¬ (s.phase a).announced b := by
      rw [hphase]
      exact lt_irrefl b
    -- below the bound the announced number is not zero, so the chunk is a control message
    have hcontrol : 0 < (finishChunk cfg a b (s.shuffler a)).expectedNumChunks := by
      show 0 < ((s.shuffler a).outboundChunkCounter b + 1) % 2 ^ 64
      rw [List.length_append, List.length_singleton] at hlt
      rw [(hstream.only_data hphase').2, Nat.mod_eq_of_lt hlt]
      exact Nat.succ_pos _
    rw [count_outbound_control hcontrol]
    exact hstream.announce hphase' (Nat.lt_succ_self b) rfl hdst hlt
  · rw [if_neg hbr]
    have houtbound : (countOutbound (cfg.partitionOwner (finishChunk cfg a r
        (s.shuffler a)).partId) (finishChunk cfg a r (s.shuffler a))
        (getNewCid a (s.shuffler a)).2).outboundChunkCounter b
        = (s.shuffler a).outboundChunkCounter b := by
      rw [hdst]
      rcases Nat.eq_zero_or_pos (finishChunk cfg a r (s.shuffler a)).expectedNumChunks with h0 | h0
      · rw [count_outbound_data h0, Function.update_of_ne hbr]
        rfl
      · rw [count_outbound_control h0]
        rfl
    rw [houtbound]
    exact hstream.later (hlater b) fun _ _ => rfl

/-- A step that neither creates a chunk nor changes a phase. -/
theorem of_base (h : Inv cfg s) (hbase : Base cfg s') (hcreated : s'.created = s.created)
    (hphase : s'.phase = s.phase) (hinserted : s'.inserted = s.inserted)
    (houtbound : ∀ a, (s'.shuffler a).outboundChunkCounter
      = (s.shuffler a).outboundChunkCounter) : Inv cfg s' := by
  refine ⟨hbase, fun a ha b hb hlt => ?_⟩
  rw [hcreated] at hlt
  rw [hcreated, hphase, hinserted, houtbound]
  exact h.stream a ha b hb hlt

/-- A step that only moves on the phase of the rank `q`. -/
theorem move_phase (h : Inv cfg s) {p : Phase}
    (hphase : ∀ b, (s.phase q).announced b → p.announced b) :
    Inv cfg { s with phase := Function.update s.phase q p } := by
  refine ⟨⟨h.base.placed, h.base.queueValid, h.base.inFlight, h.base.link⟩,
    fun a ha b hb hlt => ?_⟩
  by_cases haq : a = q
  · subst haq
    simpa using (h.stream a ha b hb hlt).later (hphase b) fun _ _ => rfl
  · simpa [haq] using h.stream a ha b hb hlt

end Inv

/-- Storing one shuffler does not change what the others counted. -/
theorem outbound_put (hsh : sh.outboundChunkCounter = (s.shuffler q).outboundChunkCounter)
    (a : Rank) : ((s.put q sh).shuffler a).outboundChunkCounter
      = (s.shuffler a).outboundChunkCounter := by
  by_cases haq : a = q
  · subst haq
    simpa [Ranks.put] using hsh
  · simp [Ranks.put, haq]

theorem insert_into_received_outbound (h : insertIntoReceived c sh = .ok sh') :
    sh'.outboundChunkCounter = sh.outboundChunkCounter := by
  rcases insert_into_received_cases h with ⟨-, reported, rfl⟩ | ⟨-, rfl⟩
  · rfl
  · rfl

theorem add_finished_chunk_eq (h : addFinishedChunk sh = .ok sh') :
    ∃ f, sh' = { sh with finishCounter := f } := by
  obtain ⟨f, -, hsh⟩ := bind_eq_ok.mp h
  exact ⟨f, (pure_eq_ok.mp hsh).symm⟩

/-- Every step keeps the invariant. -/
theorem step_inv {l : Label} (h : Inv cfg s) (hl : l.rank < cfg.nranks)
    (hstep : step cfg l s = .ok s') : Inv cfg s' := by
  cases l with
  | insert q pid d memType =>
      simp only [step] at hstep
      split at hstep
      · cases hstep
      case isFalse hphase =>
      split at hstep
      · cases hstep
      case isFalse hpid =>
      obtain ⟨sh, hinsert, hs⟩ := bind_eq_ok.mp hstep
      have hsame : s.put q (s.shuffler q) = s := by simp [Ranks.put]
      rcases insert_cases hinsert with ⟨hempty, rfl⟩ | ⟨hempty, hchunk⟩
      · rw [if_pos hempty, pure_eq_ok, hsame] at hs
        exact hs ▸ h
      · rw [if_neg (by simp [hempty]), pure_eq_ok] at hs
        exact hs ▸ h.insert_data hl (not_not.mp hpid) (not_not.mp hphase) hchunk
  | startFinish q =>
      simp only [step] at hstep
      split at hstep
      case isFalse => cases hstep
      case isTrue hphase =>
          cases pure_eq_ok.mp hstep
          exact h.move_phase fun b hb => absurd hb (by rw [hphase]; exact id)
  | finishFor q =>
      simp only [step] at hstep
      split at hstep
      case h_2 => cases hstep
      case h_1 r hphase =>
      split at hstep
      case isFalse => cases hstep
      case isTrue hr =>
      obtain ⟨sh, hfinish, hs⟩ := bind_eq_ok.mp hstep
      rcases insert_finished_for_cases hfinish with ⟨hnone, rfl⟩ | ⟨hrep, howner, hchunk⟩
      · rw [if_pos hnone, pure_eq_ok] at hs
        have hphases := h.move_phase (q := q) (p := .finishing (r + 1)) fun b hb => by
          rw [hphase] at hb
          exact lt_trans hb (Nat.lt_succ_self r)
        refine hs ▸ hphases.of_base ?_ rfl rfl rfl fun a => ?_
        · simpa [Ranks.put] using hphases.base
        · simp [Ranks.put]
      · rw [if_neg hrep.ne, pure_eq_ok] at hs
        exact hs ▸ h.announce hl hphase hrep howner hchunk
  | finishDone q =>
      simp only [step] at hstep
      split at hstep
      case isFalse => cases hstep
      case isTrue hphase =>
          cases pure_eq_ok.mp hstep
          have hphases := h.move_phase (q := q) (p := .finished) fun _ _ => trivial
          refine hphases.of_base ?_ rfl rfl rfl (outbound_put rfl)
          exact hphases.base.quiet hl rfl rfl rfl rfl (fun _ _ => ⟨rfl, rfl⟩)
            ((h.base.placed q hl).congr rfl rfl) rfl
  | submit q ready =>
      simp only [step] at hstep
      split at hstep
      · cases hstep
      · cases pure_eq_ok.mp hstep
        exact h.of_base (h.base.submit hl ready fun _ => rfl) rfl rfl rfl (outbound_put rfl)
  | deliver r position memType =>
      simp only [step] at hstep
      split at hstep
      case h_1 => cases hstep
      case h_2 m hm =>
          obtain ⟨c, hchunk, hrest⟩ := bind_eq_ok.mp hstep
          obtain ⟨sh, hplace, hs⟩ := bind_eq_ok.mp hrest
          cases pure_eq_ok.mp hs
          exact h.of_base (h.base.deliver hl hm hchunk hplace) rfl rfl rfl
            (outbound_put (insert_into_received_outbound hplace))
  | addFinished r =>
      simp only [step] at hstep
      split at hstep
      · cases hstep
      case isFalse hdue =>
          obtain ⟨sh, hadd, hs⟩ := bind_eq_ok.mp hstep
          cases pure_eq_ok.mp hs
          have hplaced := (h.base.placed r hl).add_finished hdue hadd
          obtain ⟨f, rfl⟩ := add_finished_chunk_eq hadd
          refine h.of_base (h.base.quiet hl rfl rfl rfl rfl (fun a ha => ⟨rfl, ?_⟩) ?_ rfl)
            rfl rfl rfl (outbound_put rfl)
          · exact Function.update_of_ne ha _ _
          · simpa using hplaced
  | extract r pid =>
      simp only [step] at hstep
      cases pure_eq_ok.mp hstep
      refine h.of_base (h.base.quiet hl rfl rfl rfl rfl (fun a ha => ⟨?_, rfl⟩) ?_ rfl)
        rfl rfl rfl (outbound_put rfl)
      · exact Function.update_of_ne ha _ _
      · simpa using (h.base.placed r hl).extract pid

/-- The invariant holds in every reachable state. -/
theorem reachable_inv (h : (system cfg).Reachable s) : Inv cfg s := by
  refine h.invariant ?_ ?_
  · rintro s rfl
    exact .initial cfg
  · intro s l s' hinv hstep
    exact step_inv hinv hstep.1 hstep.2

/-! ## All announced chunks are accounted for -/

/-- The number of control messages among some chunks. -/
def controlCount (m : Multiset Chunk.Info) : Nat :=
  m.countP fun i => 0 < i.expectedNumChunks

/-- What some chunks announce altogether. -/
def announcedSum (m : Multiset Chunk.Info) : Nat :=
  (m.map Chunk.Info.expectedNumChunks).sum

theorem control_count_add (m m' : Multiset Chunk.Info) :
    controlCount (m + m') = controlCount m + controlCount m' :=
  Multiset.countP_add _ _ _

theorem announced_sum_add (m m' : Multiset Chunk.Info) :
    announcedSum (m + m') = announcedSum m + announcedSum m' := by
  simp [announcedSum]

theorem control_count_coe (l : List Chunk.Info) :
    controlCount (l : Multiset Chunk.Info) = (controls l).length := by
  simp [controlCount, controls, List.countP_eq_length_filter]

theorem announced_sum_coe (l : List Chunk.Info) :
    announcedSum (l : Multiset Chunk.Info) = announcedChunks l := by
  simp [announcedSum, announcedChunks]

theorem control_count_created_for :
    controlCount (createdFor cfg s r)
      = ∑ q ∈ Finset.range cfg.nranks, (controls (s.created q r)).length := by
  rw [createdFor]
  exact (map_sum (Multiset.countPAddMonoidHom _) _ _).trans
    (Finset.sum_congr rfl fun q _ => control_count_coe _)

theorem announced_sum_created_for :
    announcedSum (createdFor cfg s r)
      = ∑ q ∈ Finset.range cfg.nranks, announcedChunks (s.created q r) := by
  rw [createdFor]
  exact (map_sum (Multiset.sumAddMonoidHom.comp (Multiset.mapAddMonoidHom _)) _ _).trans
    (Finset.sum_congr rfl fun q _ => announced_sum_coe _)

theorem card_created_for :
    (createdFor cfg s r).card = ∑ q ∈ Finset.range cfg.nranks, (s.created q r).length := by
  simp [createdFor]

theorem announced_sum_eq_zero {m : Multiset Chunk.Info} (h : controlCount m = 0) :
    announcedSum m = 0 := by
  rw [controlCount, Multiset.countP_eq_zero] at h
  rw [announcedSum, Multiset.sum_eq_zero_iff]
  intro x hx
  obtain ⟨i, hi, rfl⟩ := Multiset.mem_map.mp hx
  exact Nat.eq_zero_of_not_pos (h i hi)

section Accounting

variable (hinv : Inv cfg s) (hr : r < cfg.nranks)
  (hlt : ∑ q ∈ Finset.range cfg.nranks, (s.created q r).length < 2 ^ 64)

include hinv hr hlt

/-- The streams to the rank `r` are within the bound. -/
theorem Inv.stream_to : ∀ q < cfg.nranks,
    Stream cfg r (s.created q r) (s.phase q) ((s.shuffler q).outboundChunkCounter r)
      (s.inserted q) := by
  intro q hq
  refine hinv.stream q hq r hr (lt_of_le_of_lt ?_ hlt)
  exact Finset.single_le_sum (f := fun q => (s.created q r).length) (fun _ _ => Nat.zero_le _)
    (Finset.mem_range.mpr hq)

/-- Every rank announces itself at most once. -/
theorem Inv.control_count_le :
    controlCount (s.placed r) + controlCount (flying s r + queued cfg s r) ≤ cfg.nranks := by
  rw [← control_count_add, ← add_assoc, hinv.base.link r hr, control_count_created_for]
  calc ∑ q ∈ Finset.range cfg.nranks, (controls (s.created q r)).length
      ≤ ∑ q ∈ Finset.range cfg.nranks, 1 := Finset.sum_le_sum fun q hq =>
        (hinv.stream_to hr hlt q (Finset.mem_range.mp hq)).controls_le
    _ = cfg.nranks := by simp

/-- When all ranks have announced themselves the goal counts the chunks created for the rank. -/
theorem Inv.announced_all (hall : controlCount (s.placed r) = cfg.nranks) :
    (∀ q < cfg.nranks, (s.phase q).announced r)
      ∧ announcedSum (s.placed r) = (createdFor cfg s r).card := by
  have hle := hinv.control_count_le hr hlt
  have hrest : controlCount (flying s r + queued cfg s r) = 0 := by omega
  have hsum : ∑ q ∈ Finset.range cfg.nranks, (controls (s.created q r)).length
      = ∑ q ∈ Finset.range cfg.nranks, 1 := by
    rw [← control_count_created_for, ← hinv.base.link r hr, add_assoc, control_count_add, hrest,
      hall]
    simp
  have hone : ∀ q < cfg.nranks, (controls (s.created q r)).length = 1 := fun q hq =>
    (Finset.sum_eq_sum_iff_of_le fun q hq =>
      (hinv.stream_to hr hlt q (Finset.mem_range.mp hq)).controls_le).mp hsum q
      (Finset.mem_range.mpr hq)
  have hstream : ∀ q < cfg.nranks, (s.phase q).announced r
      ∧ announcedChunks (s.created q r) = (s.created q r).length := fun q hq =>
    (hinv.stream_to hr hlt q hq).announced_chunks fun hnil => by
      have := hone q hq
      simp [hnil] at this
  refine ⟨fun q hq => (hstream q hq).1, ?_⟩
  calc announcedSum (s.placed r)
      = announcedSum (s.placed r) + announcedSum (flying s r + queued cfg s r) := by
        rw [announced_sum_eq_zero hrest, Nat.add_zero]
    _ = ∑ q ∈ Finset.range cfg.nranks, announcedChunks (s.created q r) := by
        rw [← announced_sum_add, ← add_assoc, hinv.base.link r hr, announced_sum_created_for]
    _ = (createdFor cfg s r).card := by
        rw [card_created_for]
        exact Finset.sum_congr rfl fun q hq => (hstream q (Finset.mem_range.mp hq)).2

/-- The goal is then below the bound, and the chunks placed are at most as many. -/
theorem Inv.goal_eq
    (hall : (s.shuffler r).finishCounter.nRanksWithGoalpost = cfg.nranks) :
    (s.shuffler r).finishCounter.totalChunkGoal = (createdFor cfg s r).card := by
  have hplaced := hinv.base.placed r hr
  rw [hplaced.goalposts, ← control_count_coe] at hall
  rw [hplaced.goal, ← announced_sum_coe, (hinv.announced_all hr hlt hall).2, card_created_for,
    Nat.mod_eq_of_lt hlt]

omit hlt in
theorem Inv.placed_le : (s.placed r).length ≤ (createdFor cfg s r).card := by
  rw [← hinv.base.link r hr]
  simp only [Multiset.card_add, Multiset.coe_card]
  omega

theorem Inv.finished_eq : (s.shuffler r).finishCounter.totalFinishedChunks
    = (s.placed r).length - s.pending r := by
  have hle := hinv.placed_le hr
  rw [card_created_for] at hle
  rw [(hinv.base.placed r hr).finished]
  exact Nat.mod_eq_of_lt (by omega)

/-- The call of `add_finished_chunk` that is due does not exceed the goal. -/
theorem Inv.add_finished_chunk (howns : localPartitions cfg r ≠ []) (hdue : s.pending r ≠ 0) :
    ∃ sh, addFinishedChunk (s.shuffler r) = .ok sh := by
  have hplaced := hinv.base.placed r hr
  have hle := hinv.placed_le hr
  have hcontrols := hinv.control_count_le hr hlt
  have hbound : (createdFor cfg s r).card < 2 ^ 64 := by
    rw [card_created_for]
    exact hlt
  have hpending := hplaced.pending_le
  unfold addFinishedChunk FinishCounter.addFinishedChunk
  simp only [hinv.finished_eq hr hlt]
  by_cases hall : (s.shuffler r).finishCounter.nRanksWithGoalpost = cfg.nranks
  · rw [hinv.goal_eq hr hlt hall, if_pos (Or.inr ?_)]
    · exact ⟨_, rfl⟩
    · rw [Nat.mod_eq_of_lt (by omega)]
      omega
  · rw [if_pos (Or.inl ?_)]
    · exact ⟨_, rfl⟩
    · have hcount : controlCount (s.placed r)
          = (s.shuffler r).finishCounter.nRanksWithGoalpost := by
        rw [hplaced.goalposts, control_count_coe]
      rw [hplaced.nranks, if_neg howns]
      omega

/-- With `all_finished` every chunk created for the rank was placed there. -/
theorem Inv.all_placed (howns : localPartitions cfg r ≠ [])
    (hfinished : (s.shuffler r).finishCounter.allFinished = true) :
    (∀ q < cfg.nranks, (s.phase q).announced r) ∧ flying s r = 0 ∧ queued cfg s r = 0 := by
  have hplaced := hinv.base.placed r hr
  have hle := hinv.placed_le hr
  have hpending := hplaced.pending_le
  have hcounts : (s.shuffler r).finishCounter.nRanksWithGoalpost = cfg.nranks
      ∧ (s.shuffler r).finishCounter.totalFinishedChunks
        = (s.shuffler r).finishCounter.totalChunkGoal := by
    rw [FinishCounter.allFinished, Bool.and_eq_true, hplaced.nranks, if_neg howns] at hfinished
    exact ⟨by simpa using hfinished.1, by simpa using hfinished.2⟩
  have hall : controlCount (s.placed r) = cfg.nranks := by
    rw [control_count_coe, ← hplaced.goalposts, hcounts.1]
  have hcard : (s.placed r).length = (createdFor cfg s r).card := by
    have := hcounts.2
    rw [hinv.finished_eq hr hlt, hinv.goal_eq hr hlt hcounts.1] at this
    omega
  rw [← hinv.base.link r hr] at hcard
  simp only [Multiset.card_add, Multiset.coe_card] at hcard
  exact ⟨(hinv.announced_all hr hlt hall).1, Multiset.card_eq_zero.mp (by omega),
    Multiset.card_eq_zero.mp (by omega)⟩

end Accounting

/-! ## Nothing arrives later -/

/-- All ranks are past announcing to the rank `r` and nothing is on its way there. -/
structure Settled (cfg : Config) (r : Rank) (s : Ranks) : Prop where
  announced : ∀ q < cfg.nranks, (s.phase q).announced r
  inFlight : s.inFlight r = []
  notQueued : ∀ q < cfg.nranks, ∀ c ∈ (s.shuffler q).toSend, cfg.partitionOwner c.partId ≠ r

theorem Settled.of_all_placed (hann : ∀ q < cfg.nranks, (s.phase q).announced r)
    (hflying : flying s r = 0) (hqueued : queued cfg s r = 0) : Settled cfg r s := by
  refine ⟨hann, ?_, fun q hq c hc howner => ?_⟩
  · simpa [flying] using hflying
  · have hnil : (queuedFor cfg r (s.shuffler q).toSend : Multiset Chunk.Info) = 0 :=
      (Finset.sum_eq_zero_iff.mp hqueued) q (Finset.mem_range.mpr hq)
    have hmem : c.info ∈ queuedFor cfg r (s.shuffler q).toSend :=
      List.mem_map.mpr ⟨c, List.mem_filter.mpr ⟨hc, by simpa using howner⟩, rfl⟩
    rw [(Multiset.coe_eq_zero _).mp hnil] at hmem
    exact List.not_mem_nil hmem

/-- One shuffler changed, whose queue has nothing new for the rank `r`. -/
theorem Settled.put (h : Settled cfg r s)
    (hqueue : ∀ c ∈ sh.toSend, c ∈ (s.shuffler q).toSend ∨ cfg.partitionOwner c.partId ≠ r) :
    Settled cfg r (s.put q sh) := by
  refine ⟨h.announced, h.inFlight, fun a ha c hc => ?_⟩
  by_cases haq : a = q
  · subst haq
    simp only [Ranks.put, Function.update_self] at hc
    exact (hqueue c hc).elim (h.notQueued a ha c) id
  · simp only [Ranks.put, Function.update_of_ne haq] at hc
    exact h.notQueued a ha c hc

/-- A rank inserted a chunk that is not for the rank `r`. -/
theorem Settled.log_insert (h : Settled cfg r s) (q : Rank)
    (hne : cfg.partitionOwner c.partId ≠ r) :
    Settled cfg r (s.logInsert cfg q c) ∧ (s.logInsert cfg q c).placed r = s.placed r := by
  rw [log_insert_eq]
  split
  case isTrue hlocal =>
      refine ⟨⟨h.announced, h.inFlight, h.notQueued⟩, ?_⟩
      exact Function.update_of_ne (hlocal ▸ hne.symm) _ _
  case isFalse => exact ⟨⟨h.announced, h.inFlight, h.notQueued⟩, rfl⟩

/-- The queue after `insert(Chunk)`. -/
theorem insert_chunk_queue (h : insertChunk cfg q c sh = .ok sh') :
    ∀ b ∈ sh'.toSend, b ∈ sh.toSend ∨ b = c := by
  obtain ⟨counter, hcount⟩ := count_outbound_eq (cfg.partitionOwner c.partId) c sh
  rcases insert_chunk_cases h with ⟨-, hplace⟩ | ⟨-, rfl⟩
  · intro b hb
    rw [insert_into_received_queue hplace, hcount] at hb
    exact Or.inl hb
  · intro b hb
    simpa using hb

/-- No step changes what was placed at a settled rank. -/
theorem Settled.step {l : Label} (h : Settled cfg r s) (hl : l.rank < cfg.nranks)
    (hstep : step cfg l s = .ok s') : Settled cfg r s' ∧ s'.placed r = s.placed r := by
  cases l with
  | insert q pid d memType =>
      simp only [Shuffle.step] at hstep
      split at hstep
      · cases hstep
      case isFalse hphase =>
      have hann := h.announced q hl
      rw [not_not.mp hphase] at hann
      exact hann.elim
  | startFinish q =>
      simp only [Shuffle.step] at hstep
      split at hstep
      case isFalse => cases hstep
      case isTrue hphase =>
      have hann := h.announced q hl
      rw [hphase] at hann
      exact hann.elim
  | finishFor q =>
      simp only [Shuffle.step] at hstep
      split at hstep
      case h_2 => cases hstep
      case h_1 k hphase =>
      split at hstep
      case isFalse => cases hstep
      case isTrue hk =>
      obtain ⟨sh, hfinish, hs⟩ := bind_eq_ok.mp hstep
      have hrk : r < k := by
        have hann := h.announced q hl
        rw [hphase] at hann
        exact hann
      have hnext : Settled cfg r { s with
          phase := Function.update s.phase q (.finishing (k + 1)) } := by
        refine ⟨fun a ha => ?_, h.inFlight, h.notQueued⟩
        by_cases haq : a = q
        · subst haq
          simpa [Phase.announced] using hrk.trans (Nat.lt_succ_self k)
        · simpa [haq] using h.announced a ha
      rcases insert_finished_for_cases hfinish with ⟨hnone, rfl⟩ | ⟨hrep, howner, hchunk⟩
      · rw [if_pos hnone, pure_eq_ok] at hs
        subst hs
        exact ⟨hnext.put fun c hc => Or.inl hc, rfl⟩
      · rw [if_neg hrep.ne, pure_eq_ok] at hs
        subst hs
        have hdst : cfg.partitionOwner (finishChunk cfg q k (s.shuffler q)).partId ≠ r :=
          howner.trans_ne hrk.ne'
        obtain ⟨hsettled, hsame⟩ := hnext.log_insert q hdst
        refine ⟨hsettled.put fun c hc => ?_, hsame⟩
        rcases insert_chunk_queue hchunk c hc with hc | rfl
        · exact Or.inl (by rw [shuffler_log_insert]; exact hc)
        · exact Or.inr hdst
  | finishDone q =>
      simp only [Shuffle.step] at hstep
      split at hstep
      case isFalse => cases hstep
      case isTrue hphase =>
      cases pure_eq_ok.mp hstep
      have hnext : Settled cfg r { s with phase := Function.update s.phase q .finished } := by
        refine ⟨fun a ha => ?_, h.inFlight, h.notQueued⟩
        by_cases haq : a = q
        · subst haq
          simp [Phase.announced]
        · simpa [haq] using h.announced a ha
      exact ⟨hnext.put fun c hc => Or.inl hc, rfl⟩
  | submit q ready =>
      simp only [Shuffle.step] at hstep
      split at hstep
      · cases hstep
      · cases pure_eq_ok.mp hstep
        refine ⟨Settled.put ⟨h.announced, ?_, h.notQueued⟩ fun c hc =>
          Or.inl (List.mem_of_mem_drop hc), rfl⟩
        simp only [h.inFlight, List.nil_append, List.filter_eq_nil_iff, List.mem_map]
        rintro _ ⟨c, hc, rfl⟩
        exact decide_eq_false (h.notQueued q hl c (List.mem_of_mem_take hc)) ▸ Bool.false_ne_true
  | deliver a position memType =>
      simp only [Shuffle.step] at hstep
      split at hstep
      case h_1 => cases hstep
      case h_2 m hm =>
          have hne : r ≠ a := by
            rintro rfl
            simp [h.inFlight] at hm
          obtain ⟨c, hchunk, hrest⟩ := bind_eq_ok.mp hstep
          obtain ⟨sh, hplace, hs⟩ := bind_eq_ok.mp hrest
          cases pure_eq_ok.mp hs
          refine ⟨Settled.put ⟨h.announced, ?_, h.notQueued⟩ fun c hc => Or.inl ?_, ?_⟩
          · simpa [Ranks.logPlaced, hne] using h.inFlight
          · rw [insert_into_received_queue hplace] at hc
            exact hc
          · exact Function.update_of_ne hne _ _
  | addFinished a =>
      simp only [Shuffle.step] at hstep
      split at hstep
      · cases hstep
      · obtain ⟨sh, hadd, hs⟩ := bind_eq_ok.mp hstep
        cases pure_eq_ok.mp hs
        obtain ⟨f, rfl⟩ := add_finished_chunk_eq hadd
        exact ⟨Settled.put ⟨h.announced, h.inFlight, h.notQueued⟩ fun c hc => Or.inl hc, rfl⟩
  | extract a pid =>
      simp only [Shuffle.step] at hstep
      cases pure_eq_ok.mp hstep
      exact ⟨Settled.put ⟨h.announced, h.inFlight, h.notQueued⟩ fun c hc => Or.inl hc, rfl⟩

/-! ## The result -/

/-- The chunks ever placed in the box of a partition, extracted since or not. -/
def Ranks.box (s : Ranks) (r : Rank) (p : PartID) : List Chunk :=
  s.extracted r p ++ (s.shuffler r).received p

/-- The bytes of a chunk. -/
def Chunk.content (c : Chunk) : Bytes × Bytes := c.info.content

/-- The data of one partition among the chunks created for its owner. -/
theorem data_created_for (p : PartID) :
    (createdFor cfg s r).filter (fun i => i.expectedNumChunks = 0 ∧ i.partId = p)
      = ∑ q ∈ Finset.range cfg.nranks, (dataOf p (s.created q r) : Multiset Chunk.Info) := by
  rw [createdFor]
  exact map_sum (⟨⟨Multiset.filter _, Multiset.filter_zero _⟩, Multiset.filter_add _⟩
    : Multiset Chunk.Info →+ Multiset Chunk.Info) _ _

/-- The box of a partition holds what all ranks inserted for it, once everything was placed. -/
theorem Inv.box_eq (hinv : Inv cfg s) (hr : r < cfg.nranks)
    (hlt : ∑ q ∈ Finset.range cfg.nranks, (s.created q r).length < 2 ^ 64)
    (hplaced : (s.placed r : Multiset Chunk.Info) = createdFor cfg s r) {p : PartID}
    (hp : cfg.partitionOwner p = r) :
    ((s.box r p).map Chunk.content : Multiset (Bytes × Bytes))
      = ∑ q ∈ Finset.range cfg.nranks, (s.inserted q p : Multiset (Bytes × Bytes)) := by
  have hbox : (s.box r p).map Chunk.info = dataOf p (s.placed r) :=
    (hinv.base.placed r hr).boxes p
  have hdata : (dataOf p (s.placed r) : Multiset Chunk.Info)
      = ∑ q ∈ Finset.range cfg.nranks, (dataOf p (s.created q r) : Multiset Chunk.Info) := by
    rw [← data_created_for, ← hplaced]
    rfl
  calc ((s.box r p).map Chunk.content : Multiset (Bytes × Bytes))
      = ((dataOf p (s.placed r) : Multiset Chunk.Info)).map Chunk.Info.content := by
        rw [← hbox, Multiset.map_coe, List.map_map]
        rfl
    _ = ∑ q ∈ Finset.range cfg.nranks,
          ((dataOf p (s.created q r)).map Chunk.Info.content : Multiset (Bytes × Bytes)) := by
        rw [hdata]
        exact map_sum (Multiset.mapAddMonoidHom _) _ _
    _ = _ := Finset.sum_congr rfl fun q hq => by
        rw [(hinv.stream_to hr hlt q (Finset.mem_range.mp hq)).inserted p hp]

/-- The chunks in a box are of its partition, which the rank owns. -/
theorem Inv.of_mem_box (hinv : Inv cfg s) (hr : r < cfg.nranks)
    (hlt : ∑ q ∈ Finset.range cfg.nranks, (s.created q r).length < 2 ^ 64) {p : PartID}
    (hc : c ∈ s.box r p) : c.partId = p ∧ cfg.partitionOwner p = r := by
  have hmem : c.info ∈ dataOf p (s.placed r) :=
    (hinv.base.placed r hr).boxes p ▸ List.mem_map_of_mem hc
  have hpart : c.partId = p := by
    have := List.of_mem_filter hmem
    simp only [Bool.decide_and, Bool.and_eq_true, decide_eq_true_eq] at this
    exact this.2
  have hcreated : c.info ∈ createdFor cfg s r := by
    rw [← hinv.base.link r hr, add_assoc]
    exact Multiset.mem_add.mpr (Or.inl (List.mem_of_mem_filter hmem))
  obtain ⟨q, hq, hin⟩ := Multiset.mem_sum.mp hcreated
  have howner := (hinv.stream_to hr hlt q (Finset.mem_range.mp hq)).owner c.info hin
  exact ⟨hpart, hpart ▸ howner⟩

/-- The number of finished chunks never exceeds the goal of the ranks that have all announced
themselves. A rank with `all_finished` has exactly the data inserted for its partitions in its
boxes, and nothing more is delivered to it. -/
theorem exactly_once (cfg : Config) (s : Ranks) (hs : (system cfg).Reachable s) (r : Rank)
    (hr : r < cfg.nranks) (howns : localPartitions cfg r ≠ [])
    (hlt : ∑ q ∈ Finset.range cfg.nranks, (s.created q r).length < 2 ^ 64) :
    ((s.shuffler r).finishCounter.nRanksWithGoalpost = cfg.nranks →
        (s.shuffler r).finishCounter.totalFinishedChunks
          ≤ (s.shuffler r).finishCounter.totalChunkGoal)
      ∧ (s.pending r ≠ 0 → ∃ sh, addFinishedChunk (s.shuffler r) = .ok sh)
      ∧ ((s.shuffler r).finishCounter.allFinished = true →
        (∀ p < cfg.totalNumPartitions, cfg.partitionOwner p = r →
          ((s.box r p).map Chunk.content : Multiset (Bytes × Bytes))
            = ∑ q ∈ Finset.range cfg.nranks, (s.inserted q p : Multiset (Bytes × Bytes)))
        ∧ (∀ p, ∀ c ∈ s.box r p, c.partId = p ∧ cfg.partitionOwner p = r)
        ∧ ∀ s', (system cfg).After s s' → s'.inFlight r = []
          ∧ (∀ q < cfg.nranks, ∀ c ∈ (s'.shuffler q).toSend, cfg.partitionOwner c.partId ≠ r)
          ∧ s'.placed r = s.placed r) := by
  have hinv := reachable_inv hs
  refine ⟨fun hall => ?_, hinv.add_finished_chunk hr hlt howns, fun hfinished => ?_⟩
  · rw [hinv.goal_eq hr hlt hall, hinv.finished_eq hr hlt]
    exact (Nat.sub_le _ _).trans (hinv.placed_le hr)
  obtain ⟨hann, hflying, hqueued⟩ := hinv.all_placed hr hlt howns hfinished
  have hplaced : (s.placed r : Multiset Chunk.Info) = createdFor cfg s r := by
    rw [← hinv.base.link r hr, hflying, hqueued, add_zero, add_zero]
  refine ⟨fun p _ hp => hinv.box_eq hr hlt hplaced hp, fun p c hc => hinv.of_mem_box hr hlt hc,
    fun s' hafter => ?_⟩
  have hsettled : Settled cfg r s' ∧ s'.placed r = s.placed r := by
    refine System.After.invariant (I := fun s' => Settled cfg r s' ∧ s'.placed r = s.placed r)
      ?_ hafter ⟨.of_all_placed hann hflying hqueued, rfl⟩
    intro s₁ l s₂ h hstep
    obtain ⟨hnext, hsame⟩ := h.1.step hstep.1 hstep.2
    exact ⟨hnext, hsame.trans h.2⟩
  exact ⟨hsettled.1.inFlight, hsettled.1.notQueued, hsettled.2⟩

/-! ## Runs -/

theorem Ranks.shuffler_put (q : Rank) (sh : Shuffler) (s : Ranks) :
    (s.put q sh).shuffler q = sh := by
  simp [Ranks.put]

theorem run_reachable {ls : List Label} (hs : (system cfg).Reachable s)
    (hls : ∀ l ∈ ls, l.rank < cfg.nranks) (hrun : run (step cfg) ls s = .ok s') :
    (system cfg).Reachable s' :=
  System.Reach.run hs (fun l hl _ _ hstep => ⟨trivial, hls l hl, hstep⟩) hrun

/-- Two ranks, and one partition that rank 0 owns. -/
def onePartition : Config := .ofOwner 0 Nat.two_pos

/-- Packed data of one byte of metadata. -/
def oneByte : PackedData := ⟨[1], .empty .host⟩

/-- A run in which the control message of rank 1 overtakes its data. -/
theorem exactly_once_overtaken : ∃ s, (system onePartition).Reachable s
    ∧ (s.shuffler 0).finishCounter.allFinished = true
    ∧ ((s.box 0 0).map Chunk.content : Multiset (Bytes × Bytes))
      = ∑ q ∈ Finset.range 2, (s.inserted q 0 : Multiset (Bytes × Bytes))
    ∧ s.inserted 1 0 = [([1], [])] := by
  obtain ⟨s, hrun, hfinished, hcreated, hinserted⟩ : ∃ s,
      run (step onePartition) [.insert 1 0 oneByte .host, .startFinish 1, .finishFor 1,
        .startFinish 0, .finishFor 0, .addFinished 0, .submit 1 2, .deliver 0 1 .host,
        .deliver 0 0 .host,
        .addFinished 0, .addFinished 0] (.initial onePartition) = .ok s
      ∧ (s.shuffler 0).finishCounter.allFinished = true
      ∧ (s.created 0 0).length + (s.created 1 0).length = 3
      ∧ s.inserted 1 0 = [([1], [])] :=
    ⟨_, rfl, by decide +kernel, by decide +kernel, by decide +kernel⟩
  have hs : (system onePartition).Reachable s :=
    run_reachable (.of_init rfl) (by decide) hrun
  have hlt : ∑ q ∈ Finset.range onePartition.nranks, (s.created q 0).length < 2 ^ 64 := by
    show ∑ q ∈ Finset.range 2, (s.created q 0).length < 2 ^ 64
    rw [Finset.sum_range_succ, Finset.sum_range_one, hcreated]
    decide
  exact ⟨s, hs, hfinished, (((exactly_once onePartition s hs 0 (by decide) (by decide) hlt).2.2
    hfinished).1 0 (by decide) rfl), hinserted⟩

/-- Rank 0 announced that it has nothing, and rank 1 queued `n` chunks, if not yet its control
message. -/
structure Flooded (n : Nat) (s : Ranks) : Prop where
  reachable : (system onePartition).Reachable s
  counter : (s.shuffler 0).finishCounter = ⟨2, 1, 1, 1, Function.update (fun _ => false) 0 true⟩
  box : s.box 0 0 = []
  inFlight : s.inFlight 0 = []
  pending : s.pending 0 = 0
  phase : s.phase 1 = .inserting
  notFinished : (s.shuffler 1).locallyFinished = false
  queue : (s.shuffler 1).toSend.length = n
  outbound : (s.shuffler 1).outboundChunkCounter 0 = n % 2 ^ 64
  chunkId : (s.shuffler 1).chunkIdCounter = n % 2 ^ 64
  inserted : (s.inserted 1 0).length = n

theorem insert_one_byte (hsh : sh.locallyFinished = false) :
    insert onePartition 1 0 oneByte .host sh = .ok { countOutbound 0
      (insertedChunk 1 0 oneByte .host sh) (getNewCid 1 sh).2 with
        toSend := sh.toSend ++ [insertedChunk 1 0 oneByte .host sh] } := by
  unfold insert
  rw [hsh]
  rfl

/-- Rank 1 can queue any number of chunks. -/
theorem flooded (n : Nat) : ∃ s, Flooded n s := by
  induction n with
  | zero =>
      obtain ⟨s, hrun, hs⟩ : ∃ s,
          run (step onePartition) [.startFinish 0, .finishFor 0, .addFinished 0]
            (.initial onePartition) = .ok s
          ∧ (s.shuffler 0).finishCounter
            = ⟨2, 1, 1, 1, Function.update (fun _ => false) 0 true⟩
          ∧ s.box 0 0 = [] ∧ s.inFlight 0 = [] ∧ s.pending 0 = 0 ∧ s.phase 1 = .inserting
          ∧ s.shuffler 1 = .initial onePartition 1 ∧ s.inserted 1 0 = [] :=
        ⟨_, rfl, rfl, rfl, rfl, rfl, rfl, rfl, rfl⟩
      obtain ⟨hcounter, hbox, hflight, hpending, hphase, hsh, hinserted⟩ := hs
      refine ⟨s, run_reachable (.of_init rfl) (by decide) hrun, hcounter, hbox, hflight, hpending,
        hphase, ?_, ?_, ?_, ?_, ?_⟩
      all_goals simp [hsh, hinserted, Shuffler.initial]
  | succ n ih =>
      obtain ⟨s, h⟩ := ih
      let c := insertedChunk 1 0 oneByte .host (s.shuffler 1)
      have hstep : step onePartition (.insert 1 0 oneByte .host) s
          = .ok (((s.logInserted 1 0 oneByte).logInsert onePartition 1 c).put 1
            { countOutbound 0 c (getNewCid 1 (s.shuffler 1)).2 with
              toSend := (s.shuffler 1).toSend ++ [c] }) := by
        rw [step, h.phase, insert_one_byte h.notFinished]
        rfl
      refine ⟨_, h.reachable.next ⟨by decide, hstep⟩, h.counter, h.box, h.inFlight, h.pending,
        h.phase, ?_, ?_, ?_, ?_, ?_⟩
      · simpa [Ranks.put, countOutbound, Chunk.isControlMessage, insertedChunk,
          Chunk.fromPackedData, getNewCid, c] using h.notFinished
      · simpa [Ranks.put] using h.queue
      · simp [Ranks.put, countOutbound, Chunk.isControlMessage, insertedChunk,
          Chunk.fromPackedData, getNewCid, h.outbound, c]
      · simp [Ranks.put, countOutbound, Chunk.isControlMessage, insertedChunk,
          Chunk.fromPackedData, getNewCid, h.chunkId, c]
      · show (s.inserted 1 0 ++ [oneByte.content]).length = n + 1
        simp [h.inserted]

/-- The announcement of rank 1 after 2^64 insertions: its number wraps around. -/
theorem flooded_announced : ∃ s, (system onePartition).Reachable s
    ∧ (s.shuffler 0).finishCounter = ⟨2, 1, 1, 1, Function.update (fun _ => false) 0 true⟩
    ∧ s.box 0 0 = [] ∧ s.inFlight 0 = [] ∧ s.pending 0 = 0 ∧ s.inserted 1 0 ≠ []
    ∧ ∃ l : List Chunk, l.length = 2 ^ 64
      ∧ (s.shuffler 1).toSend = l ++ [.fromFinishedPartition (2 ^ 38 + 1) 0 1] := by
  obtain ⟨s, h⟩ := flooded (2 ^ 64)
  have hstart : step onePartition (.startFinish 1) s
      = .ok { s with phase := Function.update s.phase 1 (.finishing 0) } := by
    rw [step, if_pos h.phase]
    rfl
  have houtbound : (s.shuffler 1).outboundChunkCounter 0 = 0 := by simpa using h.outbound
  have hcounter : (s.shuffler 1).chunkIdCounter = 0 := by simpa using h.chunkId
  have hchunk : finishChunk onePartition 1 0 (s.shuffler 1)
      = .fromFinishedPartition (2 ^ 38 + 1) 0 1 := by
    simp only [finishChunk, houtbound, getNewCid, hcounter]
    rfl
  let c := finishChunk onePartition 1 0 (s.shuffler 1)
  let sh := countOutbound 0 c (getNewCid 1 (s.shuffler 1)).2
  have hfinish : step onePartition (.finishFor 1)
      { s with phase := Function.update s.phase 1 (.finishing 0) } = .ok (({ s with
        phase := Function.update (Function.update s.phase 1 (.finishing 0)) 1 (.finishing 1)
        }.logInsert onePartition 1 c).put 1 { sh with toSend := sh.toSend ++ [c] }) := by
    simp only [step, Function.update_self]
    rfl
  refine ⟨_, (h.reachable.next ⟨by decide, hstart⟩).next ⟨by decide, hfinish⟩, h.counter, h.box,
    h.inFlight, h.pending, ?_, (s.shuffler 1).toSend, h.queue, ?_⟩
  · intro hnil
    have hlength := h.inserted
    rw [show s.inserted 1 0 = [] from hnil] at hlength
    exact absurd hlength (by decide)
  · simp [Ranks.put, sh, c, hchunk, countOutbound, Chunk.isControlMessage,
      Chunk.fromFinishedPartition, getNewCid]

/-- The control message of rank 1. -/
def wrappedControl : Chunk := .fromFinishedPartition (2 ^ 38 + 1) 0 1

/-- Rank 1 then submits everything. -/
theorem flooded_submitted : ∃ s, (system onePartition).Reachable s
    ∧ (s.shuffler 0).finishCounter = ⟨2, 1, 1, 1, Function.update (fun _ => false) 0 true⟩
    ∧ s.box 0 0 = [] ∧ s.pending 0 = 0 ∧ s.inserted 1 0 ≠ []
    ∧ (s.inFlight 0)[2 ^ 64]? = some (convertChunkToMessage onePartition wrappedControl) := by
  obtain ⟨s, hreach, hcounter, hbox, hflight, hpending, hinserted, l, hlength, hqueue⟩ :=
    flooded_announced
  have htake : (s.shuffler 1).toSend.take (2 ^ 64 + 1) = l ++ [wrappedControl] := by
    rw [hqueue]
    exact List.take_of_length_le (by rw [List.length_append, hlength]; rfl)
  have hpeer : ∀ m ∈ (l ++ [wrappedControl]).map (convertChunkToMessage onePartition),
      m.peerRank = 0 := by
    intro m hm
    obtain ⟨c, -, rfl⟩ := List.mem_map.mp hm
    rfl
  have hothers : ¬ (((l ++ [wrappedControl]).map (convertChunkToMessage onePartition)).any
      fun m => decide (m.peerRank = 1)) = true := by
    intro hany
    obtain ⟨m, hm, hone⟩ := List.any_eq_true.mp hany
    exact absurd ((hpeer m hm).symm.trans (of_decide_eq_true hone)) (by decide)
  have hall : ((l ++ [wrappedControl]).map (convertChunkToMessage onePartition)).filter
      (fun m => decide (m.peerRank = 0)) = (l ++ [wrappedControl]).map
        (convertChunkToMessage onePartition) :=
    List.filter_eq_self.mpr fun m hm => decide_eq_true (hpeer m hm)
  obtain ⟨s', hsubmit, hs'⟩ : ∃ s', step onePartition (.submit 1 (2 ^ 64 + 1)) s = .ok s'
      ∧ s'.inFlight 0 = (l ++ [wrappedControl]).map (convertChunkToMessage onePartition)
      ∧ s'.shuffler 0 = s.shuffler 0 ∧ s'.extracted = s.extracted ∧ s'.pending = s.pending
      ∧ s'.inserted = s.inserted := by
    simp only [step, extractReady, htake]
    rw [if_neg hothers]
    exact ⟨_, rfl, by simp only [Ranks.put, hflight, hall, List.nil_append], rfl, rfl, rfl, rfl⟩
  obtain ⟨hflight', hsh', hextracted', hpending', hinserted'⟩ := hs'
  refine ⟨s', hreach.next ⟨by decide, hsubmit⟩, hsh' ▸ hcounter, ?_, hpending' ▸ hpending,
    hinserted' ▸ hinserted, ?_⟩
  · rw [Ranks.box, hextracted', hsh']
    exact hbox
  · rw [hflight', List.getElem?_map, List.getElem?_append_right hlength.le, hlength, Nat.sub_self]
    rfl

/-- Without the bound a rank can finish although all chunks inserted for its partition are still
in flight. -/
theorem announced_modulo : ∃ (cfg : Config) (s : Ranks), (system cfg).Reachable s
    ∧ ∃ r < cfg.nranks, localPartitions cfg r ≠ []
      ∧ (s.shuffler r).finishCounter.allFinished = true
      ∧ ∃ p < cfg.totalNumPartitions, cfg.partitionOwner p = r
        ∧ ((s.box r p).map Chunk.content : Multiset (Bytes × Bytes))
          ≠ ∑ q ∈ Finset.range cfg.nranks, (s.inserted q p : Multiset (Bytes × Bytes)) := by
  obtain ⟨s, hreach, hcounter, hbox, hpending, hinserted, hmessage⟩ := flooded_submitted
  have hchunk : chunkOfMessage onePartition 0 .host
      { convertChunkToMessage onePartition wrappedControl with
        data := deliveredData .host (convertChunkToMessage onePartition wrappedControl).data }
      = .ok wrappedControl := by
    rfl
  obtain ⟨reported, hplace⟩ : ∃ reported, insertIntoReceived wrappedControl (s.shuffler 0)
      = .ok { s.shuffler 0 with finishCounter := ⟨2, 2, 2, 1, reported⟩ } := by
    rw [insertIntoReceived, hcounter]
    exact ⟨_, rfl⟩
  obtain ⟨s₁, hdeliver, hs₁⟩ : ∃ s₁, step onePartition (.deliver 0 (2 ^ 64) .host) s = .ok s₁
      ∧ s₁.shuffler 0 = { s.shuffler 0 with finishCounter := ⟨2, 2, 2, 1, reported⟩ }
      ∧ s₁.pending 0 = 1 ∧ s₁.extracted = s.extracted ∧ s₁.inserted = s.inserted := by
    simp only [step]
    rw [hmessage]
    simp only [hchunk, hplace, bind, Except.bind]
    refine ⟨_, rfl, ?_, ?_, rfl, rfl⟩
    · exact Ranks.shuffler_put 0 _ _
    · simp [Ranks.put, Ranks.logPlaced, hpending]
  obtain ⟨hsh₁, hpending₁, hextracted₁, hinserted₁⟩ := hs₁
  obtain ⟨s₂, hadd, hs₂⟩ : ∃ s₂, step onePartition (.addFinished 0) s₁ = .ok s₂
      ∧ s₂.shuffler 0 = { s.shuffler 0 with finishCounter := ⟨2, 2, 2, 2, reported⟩ }
      ∧ s₂.extracted = s.extracted ∧ s₂.inserted = s.inserted := by
    rw [step, if_neg (by rw [hpending₁]; decide), hsh₁]
    exact ⟨_, rfl, Ranks.shuffler_put 0 _ _, hextracted₁, hinserted₁⟩
  obtain ⟨hsh₂, hextracted₂, hinserted₂⟩ := hs₂
  refine ⟨onePartition, s₂, (hreach.next ⟨by decide, hdeliver⟩).next ⟨by decide, hadd⟩, 0,
    by decide, by decide, by rw [hsh₂]; rfl, 0, by decide, rfl, ?_⟩
  have hnil : s₂.box 0 0 = [] := by
    rw [Ranks.box, hextracted₂, hsh₂]
    exact hbox
  rw [hnil, hinserted₂]
  intro hsum
  have hone := Finset.sum_eq_zero_iff.mp hsum.symm 1 (by decide)
  exact hinserted ((Multiset.coe_eq_zero _).mp hone)

end Rapidsmpf.Shuffle
