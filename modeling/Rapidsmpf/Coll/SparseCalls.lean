import Rapidsmpf.Coll.SparseLinks

/-!
# The calls of the application of a SparseAlltoall

What every run keeps is kept by `insert`, in its two steps, and by `insert_finished`, which puts in
one finish message after the other.
-/

namespace Rapidsmpf.Coll.SparseAlltoall

open Protocol Fallible ListFacts
open AllGather (ofNumber itemsOf)

variable {n : Nat} {peers : Peers n} {p q r e : Nat} {s s' : Ranks} {h : List (Nat × Msg)}
  {prod : List Msg} {box : List Chunk} {c : Comm} {chunk : Chunk} {m : Msg} {a a' : Endpoint}
  {dst : Rank} {d : Shuffle.PackedData} {converted : Option (Fin addressableMemoryTypes.length)}

/-! ## `insert` -/

theorem chunk_id_lt_word {sequence : Nat} (hs : sequence < 2 ^ 64) (origin : Nat) :
    chunkId sequence origin < 2 ^ 64 :=
  Nat.or_lt_two_pow (Nat.mod_lt _ (by decide)) hs

/-- A chunk for the destination is put in. -/
theorem Sending.add (hs : Sending q r e prod box c h) (hid : chunk.id < 2 ^ 64)
    (hdst : chunk.destination = some r) (hmsg : chunk.Says m) :
    Sending q r e (prod ++ [m]) (box ++ [chunk]) c h := by
  obtain ⟨msgs, hmsgs, hperm⟩ := hs.unsent
  refine ⟨hs.feed, hs.stamp_le, hs.sorted, fun chunk' hchunk => ?_, msgs ++ [m], ?_, ?_⟩
  · rcases List.mem_append.mp hchunk with hchunk | hchunk
    · exact hs.ids chunk' hchunk
    · rw [List.mem_singleton.mp hchunk]
      exact hid
  · rw [boxFor, List.filter_append, List.filter_cons_of_pos (by simpa using hdst)]
    exact List.rel_append hmsgs (.cons hmsg .nil)
  · rw [List.append_assoc]
    exact (List.perm_append_comm.append_left msgs).trans
      ((List.append_assoc _ _ _).symm ▸ hperm.append_right [m])

/-- A chunk for another destination is put in. -/
theorem Sending.skip (hs : Sending q r e prod box c h) (hid : chunk.id < 2 ^ 64)
    (hdst : chunk.destination ≠ some r) : Sending q r e prod (box ++ [chunk]) c h := by
  refine ⟨hs.feed, hs.stamp_le, hs.sorted, fun chunk' hchunk => ?_, ?_⟩
  · rcases List.mem_append.mp hchunk with hchunk | hchunk
    · exact hs.ids chunk' hchunk
    · rw [List.mem_singleton.mp hchunk]
      exact hid
  · rw [boxFor, List.filter_append, List.filter_cons_of_neg (by simpa using hdst),
      List.filter_nil, List.append_nil]
    exact hs.unsent

/-- What `insert` makes of the packed data. -/
theorem draw_eq_ok (hok : draw p dst d converted a = .ok (chunk, a')) :
    a.locallyFinished = false ∧ dst ∈ a.dsts ∧
      a' = { a with nextOrdinal :=
        Function.update a.nextOrdinal dst ((a.nextOrdinal dst + 1) % 2 ^ 64) } ∧
      chunk.destination = some dst ∧ chunk.id = chunkId (a.nextOrdinal dst) p ∧
      chunk.Says (.data ⟨chunkId (a.nextOrdinal dst) p, d.metadata, d.data.bytes⟩) := by
  simp only [draw] at hok
  split at hok
  · cases hok
  · next hopen =>
      split at hok
      · cases hok
      · next hdst =>
          obtain ⟨data, hensure, hok⟩ := bind_eq_ok.mp hok
          obtain ⟨rfl, rfl⟩ := Prod.mk.inj (pure_eq_ok.mp hok)
          have hbytes : data.bytes = d.data.bytes := by
            simp only [ensureMemoryType] at hensure
            split at hensure
            · cases pure_eq_ok.mp hensure
              rfl
            · split at hensure
              · cases pure_eq_ok.mp hensure
                rfl
              · cases hensure
          refine ⟨by simpa using hopen, not_not.mp hdst, rfl, rfl, rfl, rfl, rfl, ?_, ?_⟩
          · exact congrArg some hbytes
          · exact congrArg List.length hbytes

/-- A call of `insert` draws its ordinal. -/
theorem Inv.insert (hi : Inv peers s) (hp : p < n)
    (hok : step peers (.insert p dst d converted) s = .ok s') : Inv peers s' := by
  have hl := hi.locals p hp
  simp only [step] at hok
  cases hcalls : s.calls p with
  | finishing left =>
      rw [hcalls] at hok
      cases hok
  | returned =>
      rw [hcalls] at hok
      cases hok
  | inserting chunks =>
      rw [hcalls] at hok
      obtain ⟨⟨chunk, a'⟩, hdraw, hs⟩ := bind_eq_ok.mp hok
      obtain ⟨hopen, hdst, ha', hdestination, hid, hmsg⟩ := draw_eq_ok hdraw
      have hagree := hl.calls
      rw [hcalls] at hagree
      have hnone : s.finished (s.number p) p = [] := hagree.2
      have hordinal := hl.ordinal dst
      have hlt : chunk.id < 2 ^ 64 := by
        rw [hid, hordinal]
        exact chunk_id_lt_word (Nat.mod_lt _ (by decide)) p
      have hs' : s' = (s.logInsertion p dst ⟨d.metadata, d.data.bytes⟩).put p a'
          (.inserting (chunks ++ [chunk])) := (pure_eq_ok.mp hs).symm
      have ha : Applied p s s' := by
        rw [hs']
        constructor
        · rfl
        · rfl
        · exact fun r hr => Function.update_of_ne hr _ _
        · exact fun r hr => Function.update_of_ne hr _ _
        · intro e q hne
          funext r
          refine if_neg ?_
          rintro ⟨he, hq, -⟩
          exact hne.elim (fun hne => hne he) fun hne => hne hq
        · exact fun _ _ _ => rfl
        all_goals simp [Ranks.put, ha']
      have hmembers : s'.members p = a' := by
        rw [hs']
        exact Function.update_self _ _ _
      have hcalls' : s'.calls p = .inserting (chunks ++ [chunk]) := by
        rw [hs']
        exact Function.update_self _ _ _
      have hinsertions : s'.insertions (s.number p) p dst =
          s.insertions (s.number p) p dst ++ [⟨d.metadata, d.data.bytes⟩] := by
        rw [hs']
        exact if_pos ⟨rfl, rfl, rfl⟩
      have hothers : ∀ r ≠ dst, s'.insertions (s.number p) p r = s.insertions (s.number p) p r := by
        intro r hr
        rw [hs']
        exact if_neg fun heq => hr heq.2.2
      have hfinished : s'.finished = s.finished := by rw [hs']; rfl
      have hunsent : (unsent s' p).Perm (unsent s p ++ [chunk]) := by
        rw [unsent, unsent, hcalls', hcalls, hmembers, ha']
        simp only [Calls.chunks, List.append_assoc]
        exact List.perm_append_comm.append_left chunks
      refine hi.applied ha (hl.applied ha hopen (fun r => ?_) (fun r hr => ?_) ?_)
        fun r hr hne hlinked => ?_
      · rw [hmembers, ha']
        by_cases hr : r = dst
        · subst hr
          simp [hinsertions, hordinal]
        · simp [hr, hothers r hr, hl.ordinal r]
      · have hne : r ≠ dst := fun heq => hr (heq ▸ hl.dsts ▸ hdst)
        rw [hothers r hne, hfinished]
        exact hl.foreign _ r hr
      · rw [hmembers, hcalls', hfinished, ha']
        exact hagree
      · by_cases hr : r = dst
        · subst hr
          refine hlinked.applied ha (fun h hsending => ?_) (.inr fun hall => ?_)
          · refine Sending.perm ?_ hunsent
            rw [produced, hinsertions, hfinished, hnone, decide_eq_false List.not_mem_nil,
              messages_for_append, ← hordinal]
            rw [produced, hnone, decide_eq_false List.not_mem_nil] at hsending
            exact hsending.add hlt hdestination hmsg
          · have hmem := hall (hl.dsts ▸ hdst)
            rw [hnone] at hmem
            cases hmem
        · have hsame : produced s' (s.number p) p r = produced s (s.number p) p r := by
            rw [produced, produced, hothers r hr, hfinished]
          refine hlinked.applied ha (fun h hsending => ?_) (.inl ⟨hsame, ?_⟩)
          · refine Sending.perm ?_ hunsent
            rw [hsame]
            refine hsending.skip hlt ?_
            rw [hdestination]
            exact fun heq => hr (Option.some.inj heq).symm
          · rw [hfinished]
            exact id

/-- The chunk of a call of `insert` is put in. -/
theorem Inv.enqueue {k : Nat} (hi : Inv peers s) (hp : p < n)
    (hok : step peers (.enqueue p k) s = .ok s') : Inv peers s' := by
  have hl := hi.locals p hp
  simp only [step] at hok
  split at hok
  · next chunks hcalls =>
      split at hok
      · next chunk hk =>
          have hs' : s' = s.put p (SparseAlltoall.enqueue chunk (s.members p))
              (.inserting (chunks.eraseIdx k)) := (pure_eq_ok.mp hok).symm
          have ha : Applied p s s' := hs' ▸ .put rfl rfl rfl rfl rfl
          have hagree := hl.calls
          rw [hcalls] at hagree
          have hunsent : (unsent s' p).Perm (unsent s p) := by
            obtain ⟨hlt, rfl⟩ := List.getElem?_eq_some_iff.mp hk
            rw [unsent, unsent, hcalls, hs', Ranks.calls_put, Ranks.members_put]
            simp only [Calls.chunks, SparseAlltoall.enqueue]
            rw [← List.append_assoc]
            refine List.perm_append_comm.trans ?_
            rw [← List.append_assoc]
            exact (List.getElem_cons_eraseIdx_perm hlt).append_right _
          refine hi.applied ha (hl.applied ha hagree.1 (fun r => ?_) (fun r hr => ?_) ?_)
            fun r _ _ hlinked => hlinked.applied ha (fun h hsending => ?_) (.inl ⟨?_, ?_⟩)
          · rw [hs', Ranks.members_put]
            exact hl.ordinal r
          · rw [hs']
            exact hl.foreign _ r hr
          · rw [hs', Ranks.members_put, Ranks.calls_put]
            exact hagree
          · refine Sending.perm ?_ hunsent
            rw [hs']
            exact hsending
          · rw [hs']
            rfl
          · rw [hs']
            exact id
      · cases hok
  · cases hok

/-! ## `insert_finished` -/

/-- `insert_finished` is called. -/
theorem Inv.insert_finished (hi : Inv peers s) (hp : p < n)
    (hok : step peers (.insertFinished p) s = .ok s') : Inv peers s' := by
  have hl := hi.locals p hp
  simp only [step] at hok
  split at hok
  · next hcalls =>
      split at hok
      · cases hok
      · have hs' : s' = s.put p (s.members p) (.finishing (s.members p).dsts) :=
          (pure_eq_ok.mp hok).symm
        have ha : Applied p s s' := hs' ▸ .put rfl rfl rfl rfl rfl
        have hagree := hl.calls
        rw [hcalls] at hagree
        obtain ⟨hopen, hnone⟩ := hagree
        refine hi.applied ha (hl.applied ha hopen (fun r => ?_) (fun r hr => ?_) ?_)
          fun r _ _ hlinked => hlinked.applied ha (fun h hsending => ?_) (.inl ⟨?_, ?_⟩)
        · rw [hs', Ranks.members_put]
          exact hl.ordinal r
        · rw [hs']
          exact hl.foreign _ r hr
        · rw [hs', Ranks.members_put, Ranks.calls_put]
          refine ⟨hopen, ?_, fun d _ => ?_, fun d => ?_⟩
          · rw [hl.dsts]
            exact (peers.dsts_valid _ p hp).1
          · change d ∉ s.finished (s.number p) p
            rw [hnone]
            exact List.not_mem_nil
          · change d ∈ _ ↔ d ∈ _ ∨ d ∈ s.finished (s.number p) p
            simp [hnone]
        · rw [unsent, hs', Ranks.calls_put, Ranks.members_put]
          rw [unsent, hcalls] at hsending
          exact hsending
        · rw [hs']
          rfl
        · rw [hs']
          exact id
  · cases hok

/-- `insert_finished` puts in a finish message. -/
theorem Inv.finish_next (hi : Inv peers s) (hp : p < n)
    (hok : step peers (.finishNext p) s = .ok s') : Inv peers s' := by
  have hl := hi.locals p hp
  simp only [step] at hok
  split at hok
  · next dst left hcalls =>
      have hs' : s' = (s.logFinish p dst).put p
          (SparseAlltoall.enqueue (finishChunk p (s.members p).toMembers dst) (s.members p))
          (.finishing left) := (pure_eq_ok.mp hok).symm
      have hinsertions : s'.insertions = s.insertions := by rw [hs']; rfl
      have hfinished : s'.finished (s.number p) p = s.finished (s.number p) p ++ [dst] := by
        rw [hs']
        exact if_pos ⟨rfl, rfl⟩
      have hmembers : s'.members p = SparseAlltoall.enqueue
          (finishChunk p (s.members p).toMembers dst) (s.members p) := by
        rw [hs', Ranks.members_put]
      have hcalls' : s'.calls p = .finishing left := by rw [hs', Ranks.calls_put]
      have ha : Applied p s s' := by
        rw [hs']
        refine ⟨rfl, rfl, fun r hr => Function.update_of_ne hr _ _,
          fun r hr => Function.update_of_ne hr _ _, fun _ _ _ => rfl, fun e q hne => if_neg ?_, ?_,
          ?_, ?_, ?_, ?_⟩
        · rintro ⟨he, hq⟩
          exact hne.elim (fun hne => hne he) fun hne => hne hq
        all_goals rw [Ranks.members_put]; rfl
      have hagree := hl.calls
      rw [hcalls] at hagree
      obtain ⟨hopen, hnodup, hfresh, hall⟩ := hagree
      have hdst : dst ∈ (s.members p).dsts := (hall dst).mpr (.inl List.mem_cons_self)
      have hnew : dst ∉ s.finished (s.number p) p := hfresh dst List.mem_cons_self
      have hordinal := hl.ordinal dst
      have hunsent : unsent s' p =
          unsent s p ++ [finishChunk p (s.members p).toMembers dst] := by
        rw [unsent, unsent, hcalls, hcalls', hmembers]
        rfl
      have hid : (finishChunk p (s.members p).toMembers dst).id < 2 ^ 64 :=
        chunk_id_lt_word (Nat.mod_lt _ (by decide)) p
      refine hi.applied ha (hl.applied ha hopen (fun r => ?_) (fun r hr => ?_) ?_)
        fun r hr hne hlinked => ?_
      · rw [hmembers, hinsertions]
        exact hl.ordinal r
      · rw [hinsertions, hfinished]
        refine ⟨(hl.foreign _ r hr).1, fun hmem => ?_⟩
        rcases List.mem_append.mp hmem with hmem | hmem
        · exact (hl.foreign _ r hr).2 hmem
        · exact hr (hl.dsts ▸ List.mem_singleton.mp hmem ▸ hdst)
      · rw [hmembers, hcalls', hfinished]
        refine ⟨hopen, (List.nodup_cons.mp hnodup).2, fun d hd hmem => ?_, fun d => ?_⟩
        · rcases List.mem_append.mp hmem with hmem | hmem
          · exact hfresh d (List.mem_cons_of_mem _ hd) hmem
          · exact (List.nodup_cons.mp hnodup).1 (List.mem_singleton.mp hmem ▸ hd)
        · rw [hall d, List.mem_cons, List.mem_append, List.mem_singleton, or_comm (a := d = dst),
            or_assoc, or_comm (a := d = dst)]
      · by_cases hr : r = dst
        · subst hr
          refine hlinked.applied ha (fun h hsending => ?_) (.inr fun hall => ?_)
          · rw [produced, hinsertions, hfinished,
              decide_eq_true (List.mem_append_right _ List.mem_cons_self), messages_for_finished,
              hunsent]
            rw [produced, decide_eq_false hnew] at hsending
            refine hsending.add hid rfl ⟨?_, rfl, rfl, rfl⟩
            have hsequence : (s.members p).nextOrdinal r + 1 =
                (s.insertions (s.number p) p r).length % 2 ^ 64 + 1 := by rw [hordinal]
            have hmod : ((s.members p).nextOrdinal r + 1) % 2 ^ 64 =
                ((s.insertions (s.number p) p r).length + 1) % 2 ^ 64 := by
              rw [hsequence, Nat.mod_add_mod]
            exact congrArg (chunkId · p) hmod
          · exact hnew (hall (hl.dsts ▸ hdst))
        · have hmem : (r ∈ s.finished (s.number p) p ++ [dst]) =
              (r ∈ s.finished (s.number p) p) := by
            simp [hr]
          have hsame : produced s' (s.number p) p r = produced s (s.number p) p r := by
            rw [produced, produced, hinsertions, hfinished]
            simp only [hmem]
          refine hlinked.applied ha (fun h hsending => ?_) (.inl ⟨hsame, fun hmem => ?_⟩)
          · rw [hsame, hunsent]
            exact hsending.skip hid fun heq => hr (Option.some.inj heq).symm
          · rw [hfinished]
            exact List.mem_append_left _ hmem
  · cases hok

/-- `insert_finished` returns. -/
theorem Inv.finish_end (hi : Inv peers s) (hp : p < n)
    (hok : step peers (.finishEnd p) s = .ok s') : Inv peers s' := by
  have hl := hi.locals p hp
  simp only [step] at hok
  split at hok
  · next hcalls =>
      have hs' : s' = s.put p { s.members p with locallyFinished := true } .returned :=
        (pure_eq_ok.mp hok).symm
      have ha : Applied p s s' := hs' ▸ .put rfl rfl rfl rfl rfl
      have hagree := hl.calls
      rw [hcalls] at hagree
      obtain ⟨hopen, -, -, hall⟩ := hagree
      refine hi.applied ha (hl.applied ha hopen (fun r => ?_) (fun r hr => ?_) ?_)
        fun r _ _ hlinked => hlinked.applied ha (fun h hsending => ?_) (.inl ⟨?_, ?_⟩)
      · rw [hs', Ranks.members_put]
        exact hl.ordinal r
      · rw [hs']
        exact hl.foreign _ r hr
      · rw [hs', Ranks.members_put, Ranks.calls_put]
        exact ⟨rfl, fun d => by rw [hall d]; simp [Ranks.put]⟩
      · rw [unsent, hs', Ranks.calls_put, Ranks.members_put]
        rw [unsent, hcalls] at hsending
        exact hsending
      · rw [hs']
        rfl
      · rw [hs']
        exact id
  · cases hok

end Rapidsmpf.Coll.SparseAlltoall
