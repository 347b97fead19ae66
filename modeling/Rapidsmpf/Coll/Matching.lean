import Mathlib
import Rapidsmpf.Coll.Agreement

/-!
# Matching and progress of an AllReduce

Every receive of every stage of every AllReduce is matched with the message meant for it, a rank
with a pending send or receive touches nothing, and the ranks cannot get stuck: the unfinished rank
that is furthest behind never waits for a rank in the same AllReduce that is yet further behind.
-/

namespace Rapidsmpf.AllReduce

open Protocol Fallible

variable {α : Type} {i : Inputs α} {number r q : Nat} {a a' : Members α} {c c' : Comm α}
  {st : Stage} {s s' : Ranks α}

/-! ## The partner of a round -/

/-- `stage_partner_` of a rank in the round of a mask. -/
def partnerOf (n mask r : Nat) : Option Nat :=
  (logicalRankOf n r).map fun l => physicalRank n (l ^^^ mask)

theorem partner_of_eq_some_iff {n j p : Nat} (hr : r < n) (hj : j < Nat.log2 n) :
    partnerOf n (2 ^ j) r = some p ↔ Exchanges n (.butterfly (2 ^ j)) r p := by
  have hn : 0 < n := Nat.zero_lt_of_lt hr
  rw [partnerOf, Option.map_eq_some_iff, Exchanges.butterfly_iff]
  constructor
  · rintro ⟨l, hl, rfl⟩
    obtain ⟨hlt, hphysical⟩ := (logical_rank_eq_some_iff hn hr).mp hl
    exact ⟨l, j, hlt, hj, rfl, hphysical.symm, rfl⟩
  · rintro ⟨l, j', hlt, -, hpow, rfl, rfl⟩
    obtain rfl := Nat.pow_right_injective (le_refl 2) hpow
    exact ⟨l, logical_physical_rank hn hlt, rfl⟩

/-- In a round of the butterfly two ranks send to each other. -/
theorem Exchanges.butterfly_symm {n mask : Nat} (h : Exchanges n (.butterfly mask) q r) :
    Exchanges n (.butterfly mask) r q := by
  obtain ⟨l, j, hl, hj, rfl, rfl, rfl⟩ := Exchanges.butterfly_iff.mp h
  refine Exchanges.butterfly_iff.mpr ⟨l ^^^ 2 ^ j, j, partner_lt hl hj, hj, rfl, rfl, ?_⟩
  rw [partner_partner]

/-- The partner is another rank, and its partner is this one. -/
theorem partner_symm {n j p : Nat} (hr : r < n) (hj : j < Nat.log2 n)
    (h : partnerOf n (2 ^ j) r = some p) : p < n ∧ p ≠ r ∧ partnerOf n (2 ^ j) p = some r := by
  have hexch := (partner_of_eq_some_iff hr hj).mp h
  have hp := hexch.receiver_lt (Nat.zero_lt_of_lt hr)
  exact ⟨hp, hexch.ne.symm, (partner_of_eq_some_iff hp hj).mpr hexch.butterfly_symm⟩

/-- The rank that waits for a contribution before the rounds is the one that sends the result
after them. -/
theorem Exchanges.remainder_symm {n : Nat} :
    Exchanges n .preRemainder q r ↔ Exchanges n .postRemainder r q := by
  rw [Exchanges.preRemainder_iff, Exchanges.postRemainder_iff]

/-! ## How far a rank is -/

/-- How far a rank is in its AllReduce. -/
def progress (n : Nat) (a : Members α) : Nat :=
  match a.phase with
  | .startPreRemainder => 0
  | .completePreRemainder => 1
  | .startButterfly => 2 * Nat.log2 a.stageMask + 2
  | .completeButterfly => 2 * Nat.log2 a.stageMask + 3
  | .startPostRemainder => 2 * Nat.log2 n + 3
  | .completePostRemainder => 2 * Nat.log2 n + 4
  | .done | .resultAvailable => 2 * Nat.log2 n + 5

/-- How far a rank is that has just posted its sends and receives of a stage. -/
def stageProgress (n : Nat) : Stage → Nat
  | .preRemainder => 1
  | .butterfly mask => 2 * Nat.log2 mask + 3
  | .postRemainder => 2 * Nat.log2 n + 4

theorem Local.progress_lt (h : Local i number r a) :
    progress i.nranks a < 2 * Nat.log2 i.nranks + 6 := by
  cases h with
  | startButterfly hl hj hvalue =>
      simp only [progress, Nat.log2_two_pow]
      omega
  | completeButterfly hl hj hdst hposition hvalue hsrc hposition' hreceived =>
      simp only [progress, Nat.log2_two_pow]
      omega
  | _ =>
      simp only [progress]
      omega

/-- A rank that is far enough has posted its sends and receives of a stage. -/
theorem Local.posted_of_le (h : Local i number r a) (hst : Involved i.nranks st r)
    (hle : stageProgress i.nranks st ≤ progress i.nranks a) : posted a st = 1 := by
  cases st with
  | preRemainder =>
      refine if_neg fun hphase => ?_
      simp [stageProgress, progress, hphase] at hle
  | butterfly mask =>
      obtain ⟨l, j, hl, hj, rfl⟩ := involved_butterfly i.nranks_pos hst
      have hlast : 2 ^ j < nearestPow2 i.nranks := Nat.pow_lt_pow_right (by decide) hj
      -- an even rank of the remainder takes no part in the rounds
      have heven : ¬ (r < 2 * nonPow2Remainder i.nranks ∧ r % 2 = 0) := by
        rintro ⟨hrem, heven⟩
        rw [logicalRankOf, if_pos hrem, if_pos heven] at hl
        cases hl
      simp only [stageProgress, Nat.log2_two_pow] at hle
      cases h with
      | @startButterfly input out partner l' j' hl' hj' hvalue =>
          simp only [progress, Nat.log2_two_pow] at hle
          have hlt : j < j' := by omega
          exact if_pos (Or.inl (Nat.pow_lt_pow_right (by decide) hlt))
      | @completeButterfly l' j' f g hl' hj' hdst hposition hvalue hsrc hposition' hreceived =>
          simp only [progress, Nat.log2_two_pow] at hle
          have hlt : j ≤ j' := by omega
          rcases Nat.lt_or_eq_of_le hlt with hlt | rfl
          · exact if_pos (Or.inl (Nat.pow_lt_pow_right (by decide) hlt))
          · exact if_pos (Or.inr ⟨rfl, rfl⟩)
      | startPostRemainderEven hrem hr => exact absurd ⟨hrem, hr⟩ heven
      | startPostRemainderOdd hrem hodd hvalue => exact if_pos (Or.inl hlast)
      | completePostRemainderEven hrem hr hsrc hposition hreceived =>
          exact absurd ⟨hrem, hr⟩ heven
      | completePostRemainderOdd hrem hodd hdst hposition hvalue => exact if_pos (Or.inl hlast)
      | resultAvailable hvalue hmask => exact if_pos (Or.inl (hmask ⟨l, hl⟩ ▸ hlast))
      | _ =>
          simp only [progress] at hle
          omega
  | postRemainder =>
      simp only [stageProgress] at hle
      cases h with
      | completePostRemainderEven hrem heven hsrc hposition hreceived =>
          rfl
      | completePostRemainderOdd hrem hodd hdst hposition hvalue => rfl
      | resultAvailable hvalue hmask => rfl
      | startButterfly hl hj hvalue =>
          simp only [progress, Nat.log2_two_pow] at hle
          omega
      | completeButterfly hl hj hdst hposition hvalue hsrc hposition' hreceived =>
          simp only [progress, Nat.log2_two_pow] at hle
          omega
      | _ =>
          simp only [progress] at hle
          omega

/-- The stage a pending send belongs to. -/
theorem Local.sends {f : SendFuture α} (hr : r < i.nranks) (h : Local i number r a)
    (hf : a.sendFuture = some f) :
    ∃ st, Exchanges i.nranks st r f.dst ∧ f.position = number
      ∧ progress i.nranks a = stageProgress i.nranks st := by
  cases h with
  | completePreRemainderEven hrem heven hdst hposition =>
      cases hf
      exact ⟨.preRemainder, hdst ▸ .preRemainder hrem heven, hposition, rfl⟩
  | @completeButterfly l j f g hl hj hdst hposition hvalue hsrc hposition' hreceived =>
      cases hf
      obtain ⟨hlt, hphysical⟩ := (logical_rank_eq_some_iff i.nranks_pos hr).mp hl
      refine ⟨.butterfly (2 ^ j), ?_, hposition, rfl⟩
      rw [hdst, ← hphysical]
      exact .butterfly hlt hj
  | completePostRemainderOdd hrem hodd hdst hposition hvalue =>
      cases hf
      refine ⟨.postRemainder, ?_, hposition, rfl⟩
      rw [hdst, Exchanges.postRemainder_iff]
      omega
  | _ => cases hf

/-- A rank with a posted receive is as far as the stage of the receive. -/
theorem Local.progress_eq {f : RecvFuture α} (hr : r < i.nranks) (h : Local i number r a)
    (hf : a.recvFuture = some f) (hst : Exchanges i.nranks st f.src r) :
    progress i.nranks a = stageProgress i.nranks st := by
  cases h with
  | completePreRemainderOdd hrem hodd hvalue hsrc hposition hreceived =>
      cases hf
      have hpre : Exchanges i.nranks .preRemainder f.src r := by
        rw [hsrc, Exchanges.preRemainder_iff]
        omega
      rw [hst.unique hpre]
      rfl
  | @completeButterfly l j _ _ hl hj hdst hposition hvalue hsrc hposition' hreceived =>
      cases hf
      obtain ⟨hlt, hphysical⟩ := (logical_rank_eq_some_iff i.nranks_pos hr).mp hl
      have hround : Exchanges i.nranks (.butterfly (2 ^ j)) f.src r := by
        rw [hsrc, ← hphysical]
        exact (Exchanges.butterfly hlt hj).butterfly_symm
      rw [hst.unique hround]
      rfl
  | completePostRemainderEven hrem heven hsrc hposition hreceived =>
      cases hf
      have hpost : Exchanges i.nranks .postRemainder f.src r := hsrc ▸ .postRemainder hrem heven
      rw [hst.unique hpost]
      rfl
  | _ => cases hf

/-! ## Pending sends and receives -/

/-- A send or a receive of the rank is pending. -/
def Pending (a : Members α) : Prop :=
  (∃ f, a.sendFuture = some f ∧ f.complete = false)
    ∨ ∃ f, a.recvFuture = some f ∧ f.complete = false

/-- The number of buffers a rank holds, in its members and in its futures. -/
def held (a : Members α) : Nat :=
  a.inBuffer.toList.length + a.outBuffer.toList.length + a.sendFuture.toList.length
    + a.recvFuture.toList.length

/-- Each of the two buffers is in one place. -/
theorem Local.held_eq (h : Local i number r a) : held a = 2 := by
  cases h <;> rfl

/-- While a send or a receive is pending, `event_loop` does nothing. -/
theorem event_loop_pending (h : Local i number r a) (hpending : Pending a) :
    eventLoop i.nranks r (i.op number) number a c = .ok (a, c) := by
  cases h with
  | completePreRemainderEven hrem heven hdst hposition =>
      obtain ⟨f, hf, hfalse⟩ | ⟨f, hf, -⟩ := hpending
      · cases hf
        simp [eventLoop, completePreRemainder, deref, heven, hfalse, publish, bind, Except.bind,
          pure, Except.pure]
      · cases hf
  | completePreRemainderOdd hrem hodd hvalue hsrc hposition hreceived =>
      obtain ⟨f, hf, -⟩ | ⟨f, hf, hfalse⟩ := hpending
      · cases hf
      · cases hf
        simp [eventLoop, completePreRemainder, deref, hodd, hfalse, publish, bind, Except.bind,
          pure, Except.pure]
  | @completeButterfly l j f g hl hj hdst hposition hvalue hsrc hposition' hreceived =>
      cases hg : g.complete with
      | false =>
          simp [eventLoop, completeButterfly, deref, hg, publish, bind, Except.bind, pure,
            Except.pure]
      | true =>
          obtain ⟨f', hf, hfalse⟩ | ⟨g', hg', hfalse⟩ := hpending
          · cases hf
            simp [eventLoop, completeButterfly, deref, hg, hfalse, publish, bind, Except.bind,
              pure, Except.pure]
          · cases hg'
            rw [hg] at hfalse
            cases hfalse
  | completePostRemainderEven hrem heven hsrc hposition hreceived =>
      obtain ⟨f, hf, -⟩ | ⟨f, hf, hfalse⟩ := hpending
      · cases hf
      · cases hf
        simp [eventLoop, completePostRemainder, deref, heven, hfalse, publish, bind, Except.bind,
          pure, Except.pure]
  | completePostRemainderOdd hrem hodd hdst hposition hvalue =>
      obtain ⟨f, hf, hfalse⟩ | ⟨f, hf, -⟩ := hpending
      · cases hf
        simp [eventLoop, completePostRemainder, deref, hodd, hfalse, publish, bind, Except.bind,
          pure, Except.pure]
      · cases hf
  | _ => obtain ⟨f, hf, -⟩ | ⟨f, hf, -⟩ := hpending <;> cases hf

/-- A rank with a pending send or receive is not finished. -/
theorem Local.not_available (h : Local i number r a) (hpending : Pending a) :
    a.phase ≠ .resultAvailable := by
  cases h with
  | resultAvailable hvalue hmask =>
      obtain ⟨f, hf, -⟩ | ⟨f, hf, -⟩ := hpending <;> cases hf
  | _ => nofun

/-! ## Progress -/

/-- A step that moves the ranks on: a phase transition of `event_loop`, the completion of a send
whose receive has been posted, the delivery of a message, or a write being done. -/
def Moves (i : Inputs α) (s : Ranks α) (l : Label) : Prop :=
  l.rank < i.nranks ∧ ∃ s', step i l s = .ok s' ∧
    match l with
    | .eventLoop r => (s'.members r).phase ≠ (s.members r).phase
    | .completeSend r => ∃ f, (s.members r).sendFuture = some f
        ∧ f.position < (s.comm (r, f.dst)).matched
    | .deliver _ | .writeInDone _ | .writeOutDone _ => True
    | .start _ => False

theorem moves_write_in {b : Buf α} (hr : r < i.nranks) (hb : (s.members r).inBuffer = some b)
    (hdone : b.writeDone = false) : Moves i s (.writeInDone r) := by
  refine ⟨hr, s.put r { s.members r with inBuffer := some { b with writeDone := true } }, ?_,
    trivial⟩
  simp only [step, finishWrite, hb, hdone]
  rfl

theorem moves_write_out {b : Buf α} (hr : r < i.nranks) (hb : (s.members r).outBuffer = some b)
    (hdone : b.writeDone = false) : Moves i s (.writeOutDone r) := by
  refine ⟨hr, s.put r { s.members r with outBuffer := some { b with writeDone := true } }, ?_,
    trivial⟩
  simp only [step, finishWrite, hb, hdone]
  rfl

theorem moves_complete_send {f : SendFuture α} (hr : r < i.nranks)
    (hf : (s.members r).sendFuture = some f) (hpending : f.complete = false)
    (hmatched : f.position < (s.comm (r, f.dst)).matched) : Moves i s (.completeSend r) := by
  refine ⟨hr, s.put r { s.members r with sendFuture := some { f with complete := true } }, ?_, f,
    hf, hmatched⟩
  simp only [step, hf, deref]
  exact if_neg (by simp [hpending])

theorem moves_deliver {f : RecvFuture α} (hr : r < i.nranks)
    (hf : (s.members r).recvFuture = some f) (hpending : f.complete = false)
    (hsent : f.position < (s.comm (f.src, r)).sent.length) : Moves i s (.deliver r) := by
  let value := ((s.comm (f.src, r)).sent.get ⟨f.position, hsent⟩).2
  have hcontent : (s.comm (f.src, r)).content? f.position = some value := by
    rw [Channel.content?, List.getElem?_eq_getElem hsent]
    rfl
  refine ⟨hr, s.put r { s.members r with
    recvFuture := some { f with buffer := { f.buffer with value := value }, complete := true } },
    ?_, trivial⟩
  simp only [step, hf, deref, bind, Except.bind, pure, Except.pure, hpending, hcontent]
  rfl

/-- A rank has its result, and another one is still in a later AllReduce. -/
def Behind (i : Inputs α) (s : Ranks α) (q : Nat) : Prop :=
  q < i.nranks ∧ (s.members q).phase = .resultAvailable
    ∧ ∃ r < i.nranks, (s.members r).phase ≠ .resultAvailable ∧ s.number q < s.number r

/-- How far a rank is over all its AllReduces. -/
def overall (i : Inputs α) (s : Ranks α) (r : Nat) : Nat :=
  s.number r * (2 * Nat.log2 i.nranks + 6) + progress i.nranks (s.members r)

/-- The partner of the rank that is furthest behind has posted its side, unless it has yet to start
the AllReduce. -/
theorem Inv.partner_posted (h : Inv i s) (hq : q < i.nranks)
    (hmin : (s.members q).phase ≠ .resultAvailable → overall i s r ≤ overall i s q)
    (hst : Involved i.nranks st q)
    (hprogress : progress i.nranks (s.members r) = stageProgress i.nranks st) :
    s.number r < s.number q + posted (s.members q) st
      ∨ (s.members q).phase = .resultAvailable ∧ s.number q < s.number r := by
  have hlocal := h.members q hq
  have hlt := hlocal.progress_lt
  rcases Nat.lt_trichotomy (s.number q) (s.number r) with hbehind | heq | hahead
  · right
    refine ⟨?_, hbehind⟩
    by_contra hphase
    have hle := hmin hphase
    have hmul := Nat.mul_le_mul_right (2 * Nat.log2 i.nranks + 6) (Nat.succ_le_of_lt hbehind)
    rw [Nat.succ_mul] at hmul
    simp only [overall] at hle
    omega
  · left
    have hposted : posted (s.members q) st = 1 := by
      by_cases hphase : (s.members q).phase = .resultAvailable
      · exact posted_result_available hst hlocal hphase
      · have hle := hmin hphase
        simp only [overall, heq, hprogress] at hle
        exact hlocal.posted_of_le hst (by omega)
    omega
  · left
    omega

/-- The unfinished rank that is furthest behind can move, or what it waits for can happen, or the
rank it waits for has yet to start the AllReduce. -/
theorem Inv.progress (h : Inv i s) (hr : r < i.nranks)
    (hphase : (s.members r).phase ≠ .resultAvailable)
    (hmin : ∀ q < i.nranks, (s.members q).phase ≠ .resultAvailable →
      overall i s r ≤ overall i s q) :
    (∃ l, Moves i s l) ∨ ∃ q, Behind i s q := by
  have hlocal := h.members r hr
  obtain ⟨a', c', heq, hcalls⟩ := event_loop_spec hr hlocal hphase (h.channels.counted r)
  by_cases hmoves : a'.phase = (s.members r).phase
  · rcases hcalls.moves hmoves with ⟨b, hb, hdone⟩ | ⟨b, hb, hdone⟩ | ⟨f, hf, hcomplete⟩
      | ⟨f, hf, hcomplete⟩
    · exact Or.inl ⟨_, moves_write_in hr hb hdone⟩
    · exact Or.inl ⟨_, moves_write_out hr hb hdone⟩
    · obtain ⟨st, hst, hposition, hprogress⟩ := hlocal.sends hr hf
      have hq := hst.receiver_lt i.nranks_pos
      rcases h.partner_posted hq (hmin _ hq) ⟨r, Or.inr hst⟩ hprogress with hposted | hbehind
      · have hmatched : f.position < (s.comm (r, f.dst)).matched := by
          rw [(h.channels.counted f.dst).taken st r hst, hposition]
          exact hposted
        exact Or.inl ⟨_, moves_complete_send hr hf hcomplete hmatched⟩
      · exact Or.inr ⟨f.dst, hq, hbehind.1, r, hr, hphase, hbehind.2⟩
    · obtain ⟨st, hst, hposition, -, -⟩ := hlocal.receives hr hf
      have hprogress := hlocal.progress_eq hr hf hst
      have hq := hst.sender_lt i.nranks_pos
      rcases h.partner_posted hq (hmin _ hq) ⟨r, Or.inl hst⟩ hprogress with hposted | hbehind
      · have hsent : f.position < (s.comm (f.src, r)).sent.length := by
          rw [(h.channels.counted f.src).sent st r hst, hposition]
          exact hposted
        exact Or.inl ⟨_, moves_deliver hr hf hcomplete hsent⟩
      · exact Or.inr ⟨f.src, hq, hbehind.1, r, hr, hphase, hbehind.2⟩
  · refine Or.inl ⟨.eventLoop r, hr, { s with comm := c' }.put r a', ?_, ?_⟩
    · simp only [step, if_neg hphase, heq]
      rfl
    · simpa [Ranks.put] using hmoves

/-- Some rank is not finished: one that is furthest behind decides. -/
theorem Inv.not_stuck (h : Inv i s)
    (hsome : ∃ r < i.nranks, (s.members r).phase ≠ .resultAvailable) :
    (∃ l, Moves i s l) ∨ ∃ q, Behind i s q := by
  obtain ⟨r, hr, hphase⟩ := hsome
  let unfinished := (Finset.range i.nranks).filter
    fun r => (s.members r).phase ≠ .resultAvailable
  have hmem : ∀ q, q ∈ unfinished ↔ q < i.nranks ∧ (s.members q).phase ≠ .resultAvailable := by
    simp [unfinished]
  obtain ⟨m, hm, hmin⟩ :=
    Finset.exists_min_image unfinished (overall i s) ⟨r, (hmem r).mpr ⟨hr, hphase⟩⟩
  obtain ⟨hlt, hunfinished⟩ := (hmem m).mp hm
  exact h.progress hlt hunfinished fun q hq hphase => hmin q ((hmem q).mpr ⟨hq, hphase⟩)

/-! ## The result -/

/-- On every channel a receive and the message at its position belong to the same stage of the
same AllReduce. -/
theorem Channels.aligned (h : Channels i s) (q r : Nat) : (s.comm (q, r)).Aligned := by
  intro k x t hx ht
  by_cases hused : ∃ st, Exchanges i.nranks st q r
  · obtain ⟨st, hst⟩ := hused
    rw [h.sent st q r hst, List.getElem?_map, Option.map_eq_some_iff] at hx
    rw [h.taken st q r hst, List.getElem?_map, Option.map_eq_some_iff] at ht
    obtain ⟨e, he, rfl⟩ := hx
    obtain ⟨e', he', rfl⟩ := ht
    obtain ⟨-, rfl⟩ := List.getElem?_eq_some_iff.mp he
    obtain ⟨-, rfl⟩ := List.getElem?_eq_some_iff.mp he'
    simp
  · rw [(h.unused q r (not_exists.mp hused)).1] at hx
    cases hx

/-- A posted receive carries the stamp of the AllReduce and the stage of its rank. -/
theorem Channels.taken_eq (h : Channels i s) (hst : Exchanges i.nranks st q r)
    (hposted : posted (s.members r) st = 1) :
    (s.comm (q, r)).taken[s.number r]? = some (s.number r, st) := by
  rw [h.taken st q r hst, hposted, List.getElem?_map]
  simp

/-- The partner of a rank in a round. -/
theorem Local.partner_eq (h : Local i number r a) (hphase : a.phase = .completeButterfly) :
    ∃ j < Nat.log2 i.nranks, a.stageMask = 2 ^ j
      ∧ a.stagePartner = partnerOf i.nranks (2 ^ j) r := by
  cases h with
  | @completeButterfly l j f g hl hj hdst hposition hvalue hsrc hposition' hreceived =>
      refine ⟨j, hj, rfl, ?_⟩
      rw [partnerOf, hl]
      rfl
  | _ => cases hphase

/-- In every reachable state every receive is matched with the message of its own AllReduce and
stage, partners are other ranks and partners of each other, a rank with a pending send or receive
touches none of its buffers, and the ranks are not stuck: unless all have their result, one of
them can move or has yet to start an AllReduce that another rank is already in. -/
theorem matching_and_progress (i : Inputs α) (s : Ranks α) (hs : (system i).Reachable s) :
    ((∀ q r, (s.comm (q, r)).Aligned)
      ∧ ∀ r < i.nranks, ∀ f, (s.members r).recvFuture = some f →
        ∃ st, Exchanges i.nranks st f.src r
          ∧ (s.comm (f.src, r)).taken[f.position]? = some (s.number r, st))
    ∧ ((∀ r < i.nranks, ∀ j < Nat.log2 i.nranks, ∀ p, partnerOf i.nranks (2 ^ j) r = some p →
          p < i.nranks ∧ p ≠ r ∧ partnerOf i.nranks (2 ^ j) p = some r)
      ∧ (∀ r < i.nranks, (s.members r).phase = .completeButterfly →
          ∃ j < Nat.log2 i.nranks, (s.members r).stageMask = 2 ^ j
            ∧ (s.members r).stagePartner = partnerOf i.nranks (2 ^ j) r)
      ∧ (∀ q r, Exchanges i.nranks .preRemainder q r ↔ Exchanges i.nranks .postRemainder r q)
      ∧ ∀ st q r, Exchanges i.nranks st q r → q < i.nranks ∧ r < i.nranks ∧ q ≠ r)
    ∧ (∀ r < i.nranks, held (s.members r) = 2
      ∧ (Pending (s.members r) → step i (.eventLoop r) s = .ok s)
      ∧ ((s.members r).phase ≠ .resultAvailable → ∃ s', step i (.eventLoop r) s = .ok s'))
    ∧ ((∃ r < i.nranks, (s.members r).phase ≠ .resultAvailable) →
      (∃ l, Moves i s l) ∨ ∃ q, Behind i s q) := by
  have h := reachable_inv hs
  refine ⟨⟨h.channels.aligned, fun r hr f hf => ?_⟩,
    ⟨fun r hr j hj p hp => partner_symm hr hj hp, fun r hr => (h.members r hr).partner_eq,
      fun q r => Exchanges.remainder_symm, fun st q r hst =>
        ⟨hst.sender_lt i.nranks_pos, hst.receiver_lt i.nranks_pos, hst.ne⟩⟩,
    fun r hr => ⟨(h.members r hr).held_eq, fun hpending => ?_, fun hphase => ?_⟩, h.not_stuck⟩
  · obtain ⟨st, hst, hposition, hposted, -⟩ := (h.members r hr).receives hr hf
    exact ⟨st, hst, hposition ▸ h.channels.taken_eq hst hposted⟩
  · have hphase : (s.members r).phase ≠ .resultAvailable :=
      (h.members r hr).not_available hpending
    simp only [step, if_neg hphase, event_loop_pending (h.members r hr) hpending]
    simp [bind, Except.bind, pure, Except.pure, Ranks.put]
  · obtain ⟨a', c', heq, -⟩ :=
      event_loop_spec hr (h.members r hr) hphase (h.channels.counted r)
    refine ⟨{ s with comm := c' }.put r a', ?_⟩
    simp only [step, if_neg hphase, heq]
    rfl

/-- The three ranks when the ranks 1 and 2 have posted their round. -/
theorem matching_and_progress_three : ∃ s, (system threeRanks).Reachable s
    ∧ (∃ f, (s.members 1).recvFuture = some f ∧ f.src = 2
      ∧ (s.comm (2, 1)).taken[f.position]? = some (0, .butterfly 1))
    ∧ ((∃ l, Moves threeRanks s l) ∨ ∃ q, Behind threeRanks s q) := by
  obtain ⟨s, hrun, hphase, hnumber, f, hf, hsrc⟩ : ∃ s,
      run (step threeRanks) (threeSteps.take 15) (.initial threeRanks) = .ok s
        ∧ (s.members 1).phase = .completeButterfly ∧ s.number 1 = 0
        ∧ ∃ f, (s.members 1).recvFuture = some f ∧ f.src = 2 :=
    ⟨_, rfl, rfl, rfl, _, rfl, rfl⟩
  have hs : (system threeRanks).Reachable s := run_reachable (.of_init rfl) (by decide) hrun
  obtain ⟨⟨-, hmatched⟩, -, -, hprogress⟩ := matching_and_progress threeRanks s hs
  refine ⟨s, hs, ⟨f, hf, hsrc, ?_⟩, hprogress ⟨1, by decide, by simp [hphase]⟩⟩
  obtain ⟨st, hst, htaken⟩ := hmatched 1 (by decide) f hf
  have hround : Exchanges 3 (.butterfly 1) f.src 1 :=
    hsrc ▸ Exchanges.butterfly_iff.mpr ⟨1, 0, by decide, by decide, rfl, rfl, rfl⟩
  rw [← hsrc, htaken, hnumber, hst.unique hround]

/-- Two ranks that concatenate lists. -/
def twoRanks : Inputs (List Nat) where
  nranks := 2
  nranks_pos := by decide
  input := fun _ r => [r]
  op := fun _ left right => left ++ right

/-- Both ranks finish an AllReduce, and rank 0 alone goes as far as it gets in the next one. -/
def overtakingSteps : List Label :=
  [.writeInDone 0, .writeOutDone 0, .writeInDone 1, .writeOutDone 1, .eventLoop 0, .eventLoop 1,
    .deliver 0, .deliver 1, .completeSend 0, .completeSend 1, .eventLoop 0, .eventLoop 1,
    .eventLoop 0, .eventLoop 1, .writeOutDone 1, .start 0, .writeInDone 0, .writeOutDone 0,
    .eventLoop 0, .completeSend 0]

/-- Rank 0 has no result yet, and nothing can happen but a call of `event_loop` that changes no
phase and the start of the AllReduce on rank 1. -/
theorem waits_for_start : ∃ s, (system twoRanks).Reachable s
    ∧ (s.members 0).phase ≠ .resultAvailable
    ∧ ∀ l s', (system twoRanks).step s l s' →
      l = .start 1 ∨ ∃ r, l = .eventLoop r ∧ (s'.members r).phase = (s.members r).phase := by
  obtain ⟨s, hrun, hphase, hcalls, hstart, hothers⟩ : ∃ s,
      run (step twoRanks) overtakingSteps (.initial twoRanks) = .ok s
        ∧ (s.members 0).phase = .completeButterfly
        ∧ (∀ r < 2, ∀ phase ∈ (step twoRanks (.eventLoop r) s).toOption.map
          fun s' => (s'.members r).phase, phase = (s.members r).phase)
        ∧ (step twoRanks (.start 0) s).isOk = false
        ∧ ∀ r < 2, ∀ l ∈ [.completeSend r, .deliver r, .writeInDone r, .writeOutDone r],
          (step twoRanks l s).isOk = false :=
    ⟨_, rfl, by decide +kernel, by decide +kernel, by decide +kernel, by decide +kernel⟩
  have hs : (system twoRanks).Reachable s := run_reachable (.of_init rfl) (by decide) hrun
  refine ⟨s, hs, by simp [hphase], ?_⟩
  rintro l s' ⟨hl, hstep⟩
  have hok : (step twoRanks l s).isOk = true := by rw [hstep]; rfl
  cases l with
  | eventLoop r =>
      have hr : r < 2 := hl
      exact Or.inr ⟨r, rfl, hcalls r hr _ (by simp [hstep, Except.toOption])⟩
  | start r =>
      have hr : r < 2 := hl
      obtain rfl | rfl : r = 0 ∨ r = 1 := by omega
      · rw [hstart] at hok
        cases hok
      · exact Or.inl rfl
  | completeSend r =>
      rw [hothers r hl _ (by simp)] at hok
      cases hok
  | deliver r =>
      rw [hothers r hl _ (by simp)] at hok
      cases hok
  | writeInDone r =>
      rw [hothers r hl _ (by simp)] at hok
      cases hok
  | writeOutDone r =>
      rw [hothers r hl _ (by simp)] at hok
      cases hok

end Rapidsmpf.AllReduce
