import Rapidsmpf.Coll.Rounds

/-!
# All ranks of an AllReduce get the same result

`Channels` says what was sent and received on each channel: one message for each AllReduce on a
channel that is used at all, so that the message at position `e` belongs to the AllReduce number
`e`. It is read off the states of the two ranks; nothing is assumed about how far the ranks are
apart. `agreement` is the result.
-/

namespace Rapidsmpf.AllReduce

open Protocol Fallible

variable {α : Type} {i : Inputs α} {number r q : Nat} {a a' : Members α} {c c' : Comm α}
  {st : Stage} {s s' : Ranks α}

/-! ## All ranks -/

/-- What was sent and received on each channel: on a channel that is used, one message for each
AllReduce, in the stage of its two ranks. -/
structure Channels (i : Inputs α) (s : Ranks α) : Prop where
  sent : ∀ st q r, Exchanges i.nranks st q r → (s.comm (q, r)).sent
    = (List.range (s.number q + posted (s.members q) st)).map
      fun e => ((e, st), carried i e q st)
  taken : ∀ st q r, Exchanges i.nranks st q r → (s.comm (q, r)).taken
    = (List.range (s.number r + posted (s.members r) st)).map fun e => (e, st)
  unused : ∀ q r, (∀ st, ¬ Exchanges i.nranks st q r) →
    (s.comm (q, r)).sent = [] ∧ (s.comm (q, r)).taken = []

/-- The invariant of all ranks. -/
structure Inv (i : Inputs α) (s : Ranks α) : Prop where
  members : ∀ r < i.nranks, Local i (s.number r) r (s.members r)
  channels : Channels i s

theorem Inv.initial (i : Inputs α) : Inv i (.initial i) := by
  refine ⟨fun r _ => .make i 0 r, ?_, ?_, fun _ _ _ => ⟨rfl, rfl⟩⟩
  · intro st q r h
    have hposted : posted (Members.make i.nranks q (i.input 0 q)) st = 0 :=
      posted_make ⟨r, Or.inl h⟩ _
    simp [Ranks.initial, hposted]
  · intro st q r h
    have hposted : posted (Members.make i.nranks r (i.input 0 r)) st = 0 :=
      posted_make ⟨q, Or.inr h⟩ _
    simp [Ranks.initial, hposted]

theorem Channels.counted (h : Channels i s) (r : Nat) :
    Counted i (s.number r) r (s.members r) s.comm := by
  constructor
  · intro st q hq
    simp [h.sent st r q hq]
  · intro st q hq
    simp [Channel.matched, h.taken st q r hq]

/-- The members of one rank changed, and the channels did not. -/
theorem Inv.put (h : Inv i s) (hlocal : Local i (s.number r) r a)
    (hposted : ∀ st, Involved i.nranks st r → posted a st = posted (s.members r) st) :
    Inv i (s.put r a) := by
  have hsame : ∀ st b, Involved i.nranks st b →
      posted ((s.put r a).members b) st = posted (s.members b) st := by
    intro st b hb
    by_cases hbr : b = r
    · subst hbr
      simpa [Ranks.put] using hposted st hb
    · simp [Ranks.put, hbr]
  refine ⟨fun b hb => ?_, ?_, ?_, h.channels.unused⟩
  · by_cases hbr : b = r
    · subst hbr
      simpa [Ranks.put] using hlocal
    · simpa [Ranks.put, hbr] using h.members b hb
  · intro st q b hq
    rw [hsame st q ⟨b, Or.inl hq⟩]
    exact h.channels.sent st q b hq
  · intro st q b hq
    rw [hsame st b ⟨q, Or.inr hq⟩]
    exact h.channels.taken st q b hq

/-- A rank posted its sends and receives of a stage. -/
theorem Inv.post (h : Inv i s) (hlocal : Local i (s.number r) r a')
    (hbefore : posted (s.members r) st = 0) (hafter : posted a' st = 1)
    (hposts : Posts i (s.number r) r st s.comm c')
    (hothers : ∀ st', Involved i.nranks st' r → st' ≠ st →
      posted a' st' = posted (s.members r) st') :
    Inv i ({ s with comm := c' }.put r a') := by
  refine ⟨fun b hb => ?_, ?_, ?_, ?_⟩
  · by_cases hbr : b = r
    · subst hbr
      simpa [Ranks.put] using hlocal
    · simpa [Ranks.put, hbr] using h.members b hb
  · intro st' q b hq
    have hold := h.channels.sent st' q b hq
    by_cases hqr : q = r
    · subst hqr
      by_cases hst : st' = st
      · subst hst
        rw [hbefore, Nat.add_zero] at hold
        simp only [Ranks.put, Function.update_self, hafter, hposts.sends b hq, hold,
          List.range_succ, List.map_append, List.map_cons, List.map_nil]
      · have hkeep := hposts.sent (q, b) fun _ hst' => hst (hq.unique hst')
        simp only [Ranks.put, Function.update_self, hkeep, hold,
          hothers st' ⟨b, Or.inl hq⟩ hst]
    · have hkeep := hposts.sent (q, b) fun heq => absurd heq hqr
      simp only [Ranks.put, Function.update_of_ne hqr, hkeep, hold]
  · intro st' q b hq
    have hold := h.channels.taken st' q b hq
    by_cases hbr : b = r
    · subst hbr
      by_cases hst : st' = st
      · subst hst
        rw [hbefore, Nat.add_zero] at hold
        simp only [Ranks.put, Function.update_self, hafter, hposts.takes q hq, hold,
          List.range_succ, List.map_append, List.map_cons, List.map_nil]
      · have hkeep := hposts.taken (q, b) fun _ hst' => hst (hq.unique hst')
        simp only [Ranks.put, Function.update_self, hkeep, hold,
          hothers st' ⟨q, Or.inr hq⟩ hst]
    · have hkeep := hposts.taken (q, b) fun heq => absurd heq hbr
      simp only [Ranks.put, Function.update_of_ne hbr, hkeep, hold]
  · intro q b hnone
    obtain ⟨hsent, htaken⟩ := h.channels.unused q b hnone
    refine ⟨?_, ?_⟩
    · rw [← hsent]
      exact hposts.sent (q, b) fun heq => heq ▸ hnone st
    · rw [← htaken]
      exact hposts.taken (q, b) fun heq => heq ▸ hnone st

/-- A call of `event_loop`. -/
theorem Inv.calls (h : Inv i s)
    (hcalls : Calls i (s.number r) r (s.members r) a' s.comm c') :
    Inv i ({ s with comm := c' }.put r a') := by
  rcases hcalls.channels with ⟨rfl, hposted⟩ | ⟨st, hbefore, hafter, hposts, hothers⟩
  · exact h.put hcalls.members hposted
  · exact h.post hcalls.members hbefore hafter hposts hothers

/-- The members changed in neither phase nor stage. -/
theorem posted_eq (hphase : a'.phase = a.phase) (hmask : a'.stageMask = a.stageMask)
    (st : Stage) : posted a' st = posted a st := by
  cases st <;> simp only [posted, hphase, hmask]

/-- A write to the output buffer is done. -/
theorem Local.write_out {b : Buf α} {done : Bool} (h : Local i number r a)
    (hb : a.outBuffer = some b) :
    Local i number r { a with outBuffer := some { b with writeDone := done } } := by
  cases h with
  | startPreRemainder hrem hvalue =>
      cases hb
      exact .startPreRemainder hrem hvalue
  | completePreRemainderOdd hrem hodd hvalue hsrc hposition hreceived =>
      cases hb
      exact .completePreRemainderOdd hrem hodd hvalue hsrc hposition hreceived
  | startButterfly hl hj hvalue =>
      cases hb
      exact .startButterfly hl hj hvalue
  | startPostRemainderEven hrem heven => exact .startPostRemainderEven hrem heven
  | startPostRemainderOdd hrem hodd hvalue =>
      cases hb
      exact .startPostRemainderOdd hrem hodd hvalue
  | resultAvailable hvalue hmask =>
      cases hb
      exact .resultAvailable hvalue hmask
  | _ => cases hb

/-- A write to the input buffer is done. -/
theorem Local.write_in {b : Buf α} (b' : Buf α) (h : Local i number r a)
    (hb : a.inBuffer = some b) : Local i number r { a with inBuffer := some b' } := by
  cases h with
  | startPreRemainder hrem hvalue => exact .startPreRemainder hrem hvalue
  | completePreRemainderEven hrem heven hdst hposition =>
      exact .completePreRemainderEven hrem heven hdst hposition
  | startButterfly hl hj hvalue => exact .startButterfly hl hj hvalue
  | startPostRemainderEven hrem heven => exact .startPostRemainderEven hrem heven
  | startPostRemainderOdd hrem hodd hvalue => exact .startPostRemainderOdd hrem hodd hvalue
  | completePostRemainderEven hrem heven hsrc hposition hreceived =>
      exact .completePostRemainderEven hrem heven hsrc hposition hreceived
  | completePostRemainderOdd hrem hodd hdst hposition hvalue =>
      exact .completePostRemainderOdd hrem hodd hdst hposition hvalue
  | resultAvailable hvalue hmask => exact .resultAvailable hvalue hmask
  | _ => cases hb

/-- A send is complete. -/
theorem Local.complete_send {f : SendFuture α} (h : Local i number r a)
    (hf : a.sendFuture = some f) :
    Local i number r { a with sendFuture := some { f with complete := true } } := by
  cases h with
  | completePreRemainderEven hrem heven hdst hposition =>
      cases hf
      exact .completePreRemainderEven hrem heven hdst hposition
  | completeButterfly hl hj hdst hposition hvalue hsrc hposition' hreceived =>
      cases hf
      exact .completeButterfly hl hj hdst hposition hvalue hsrc hposition' hreceived
  | completePostRemainderOdd hrem hodd hdst hposition hvalue =>
      cases hf
      exact .completePostRemainderOdd hrem hodd hdst hposition hvalue
  | _ => cases hf

/-- The stage a posted receive belongs to, and what it is to receive. -/
theorem Local.receives {f : RecvFuture α} (hr : r < i.nranks) (h : Local i number r a)
    (hf : a.recvFuture = some f) :
    ∃ st, Exchanges i.nranks st f.src r ∧ f.position = number ∧ posted a st = 1
      ∧ ∀ buffer : Buf α, buffer.value = carried i number f.src st →
        Local i number r { a with
          recvFuture := some { f with buffer := buffer, complete := true } } := by
  cases h with
  | completePreRemainderOdd hrem hodd hvalue hsrc hposition hreceived =>
      cases hf
      refine ⟨.preRemainder, ?_, hposition, rfl, fun buffer hbuffer => ?_⟩
      · rw [hsrc, Exchanges.preRemainder_iff]
        omega
      · rw [hsrc, carried] at hbuffer
        exact .completePreRemainderOdd hrem hodd hvalue hsrc hposition fun _ => hbuffer
  | @completeButterfly l j f g hl hj hdst hposition hvalue hsrc hposition' hreceived =>
      cases hf
      obtain ⟨hlt, hphysical⟩ := (logical_rank_eq_some_iff i.nranks_pos hr).mp hl
      have hback : r = physicalRank i.nranks (l ^^^ 2 ^ j ^^^ 2 ^ j) := by
        rw [partner_partner, hphysical]
      refine ⟨.butterfly (2 ^ j), ?_, hposition', by simp [posted], fun buffer hbuffer => ?_⟩
      · rw [hsrc, hback]
        exact .butterfly (partner_lt hlt hj) hj
      · rw [hsrc, carried_butterfly (partner_lt hlt hj)] at hbuffer
        exact .completeButterfly hl hj hdst hposition hvalue hsrc hposition' fun _ => hbuffer
  | completePostRemainderEven hrem heven hsrc hposition hreceived =>
      cases hf
      refine ⟨.postRemainder, ?_, hposition, rfl, fun buffer hbuffer => ?_⟩
      · rw [hsrc]
        exact .postRemainder hrem heven
      · exact .completePostRemainderEven hrem heven hsrc hposition fun _ => hbuffer
  | _ => cases hf

/-- The message a receive of the AllReduce number `number` is matched with. -/
theorem Channels.content_eq (h : Channels i s) (hq : Exchanges i.nranks st q r) {v : α}
    (hcontent : (s.comm (q, r)).content? number = some v) : v = carried i number q st := by
  rw [Channel.content?, h.sent st q r hq, List.getElem?_map, Option.map_map,
    Option.map_eq_some_iff] at hcontent
  obtain ⟨e, he, rfl⟩ := hcontent
  obtain ⟨hlt, rfl⟩ := List.getElem?_eq_some_iff.mp he
  simp

theorem deref_eq_ok {β : Type} {o : Option β} {b : β} (h : deref o = .ok b) : o = some b := by
  cases o with
  | none => cases h
  | some b' => exact congrArg some (pure_eq_ok.mp h)

theorem finish_write_eq_ok {o o' : Option (Buf α)} (h : finishWrite o = .ok o') :
    ∃ b, o = some b ∧ b.writeDone = false ∧ o' = some { b with writeDone := true } := by
  cases o with
  | none => cases h
  | some b =>
      simp only [finishWrite] at h
      split at h
      case isTrue => cases h
      case isFalse hb => exact ⟨b, rfl, by simpa using hb, (pure_eq_ok.mp h).symm⟩

/-- The next AllReduce of a rank. -/
theorem Inv.start (h : Inv i s) (hr : r < i.nranks)
    (hphase : (s.members r).phase = .resultAvailable) (x : α)
    (hx : x = i.input (s.number r + 1) r) :
    Inv i ({ s with number := Function.update s.number r (s.number r + 1) }.put r
      (.make i.nranks r x)) := by
  subst hx
  have hlocal := h.members r hr
  have hcount : ∀ st b, Involved i.nranks st b →
      Function.update s.number r (s.number r + 1) b
          + posted (Function.update s.members r
            (.make i.nranks r (i.input (s.number r + 1) r)) b) st
        = s.number b + posted (s.members b) st := by
    intro st b hb
    by_cases hbr : b = r
    · subst hbr
      rw [Function.update_self, Function.update_self, posted_make hb,
        posted_result_available hb hlocal hphase]
    · rw [Function.update_of_ne hbr, Function.update_of_ne hbr]
  refine ⟨fun b hb => ?_, ?_, ?_, h.channels.unused⟩
  · by_cases hbr : b = r
    · subst hbr
      simpa [Ranks.put] using Local.make i (s.number b + 1) b
    · simpa [Ranks.put, hbr] using h.members b hb
  · intro st q b hq
    simp only [Ranks.put, hcount st q ⟨b, Or.inl hq⟩]
    exact h.channels.sent st q b hq
  · intro st q b hq
    simp only [Ranks.put, hcount st b ⟨q, Or.inr hq⟩]
    exact h.channels.taken st q b hq

/-- Every step keeps the invariant. -/
theorem step_inv {l : Label} (h : Inv i s) (hl : l.rank < i.nranks)
    (hstep : step i l s = .ok s') : Inv i s' := by
  cases l with
  | eventLoop r =>
      simp only [step] at hstep
      split at hstep
      case isTrue => cases hstep
      case isFalse hphase =>
          have hr : r < i.nranks := hl
          obtain ⟨a', c', heq, hcalls⟩ :=
            event_loop_spec hr (h.members r hr) hphase (h.channels.counted r)
          rw [heq] at hstep
          cases pure_eq_ok.mp hstep
          exact h.calls hcalls
  | completeSend r =>
      obtain ⟨f, hf, hrest⟩ := bind_eq_ok.mp hstep
      split at hrest
      case isTrue => cases hrest
      case isFalse =>
          cases pure_eq_ok.mp hrest
          exact h.put ((h.members r hl).complete_send (deref_eq_ok hf)) fun st _ =>
            posted_eq rfl rfl st
  | deliver r =>
      obtain ⟨f, hf, hrest⟩ := bind_eq_ok.mp hstep
      split at hrest
      case isTrue => cases hrest
      case isFalse =>
          obtain ⟨v, hv, hs⟩ := bind_eq_ok.mp hrest
          cases pure_eq_ok.mp hs
          obtain ⟨st, hq, hposition, -, hfill⟩ := (h.members r hl).receives hl (deref_eq_ok hf)
          have hcontent := deref_eq_ok hv
          rw [hposition] at hcontent
          exact h.put (hfill _ (h.channels.content_eq hq hcontent)) fun st _ =>
            posted_eq rfl rfl st
  | writeInDone r =>
      obtain ⟨b, hb, hs⟩ := bind_eq_ok.mp hstep
      cases pure_eq_ok.mp hs
      obtain ⟨b', hb', -, rfl⟩ := finish_write_eq_ok hb
      exact h.put ((h.members r hl).write_in _ hb') fun st _ => posted_eq rfl rfl st
  | writeOutDone r =>
      obtain ⟨b, hb, hs⟩ := bind_eq_ok.mp hstep
      cases pure_eq_ok.mp hs
      obtain ⟨b', hb', -, rfl⟩ := finish_write_eq_ok hb
      exact h.put ((h.members r hl).write_out hb') fun st _ => posted_eq rfl rfl st
  | start r =>
      simp only [step] at hstep
      split at hstep
      case isFalse => cases hstep
      case isTrue hphase =>
          cases pure_eq_ok.mp hstep
          exact h.start hl hphase _ rfl

/-- The invariant holds in every reachable state. -/
theorem reachable_inv (h : (system i).Reachable s) : Inv i s := by
  refine h.invariant ?_ ?_
  · rintro s rfl
    exact .initial i
  · intro s l s' hinv hstep
    exact step_inv hinv hstep.1 hstep.2

/-! ## The result -/

/-- A rank whose result is available has the result of its AllReduce. -/
theorem Local.result_eq (h : Local i number r a) (hphase : a.phase = .resultAvailable) :
    ∃ out, a.outBuffer = some out ∧ out.value = result i number := by
  cases h with
  | resultAvailable hvalue hmask => exact ⟨_, rfl, hvalue⟩
  | _ => cases hphase

/-- Every rank whose result is available has the value of the one bracketing of its inputs in rank
order; for an associative operator this is their product in rank order. -/
theorem agreement (i : Inputs α) (s : Ranks α) (hs : (system i).Reachable s) :
    (bracketing i.nranks).leaves = List.range i.nranks
      ∧ (∀ r < i.nranks, (s.members r).phase = .resultAvailable →
        ∃ out, (s.members r).outBuffer = some out
          ∧ out.value = (bracketing i.nranks).eval (i.op (s.number r)) (i.input (s.number r))
          ∧ ((∀ a b c, i.op (s.number r) (i.op (s.number r) a b) c
              = i.op (s.number r) a (i.op (s.number r) b c)) →
            out.value = ((List.range' 1 (i.nranks - 1)).map (i.input (s.number r))).foldl
              (i.op (s.number r)) (i.input (s.number r) 0)))
      ∧ ∀ r < i.nranks, ∀ q < i.nranks, (s.members r).phase = .resultAvailable →
        (s.members q).phase = .resultAvailable → s.number r = s.number q →
        (s.members r).outBuffer.map Buf.value = (s.members q).outBuffer.map Buf.value := by
  have hinv := reachable_inv hs
  have hleaves := leaves_bracketing i.nranks_pos
  refine ⟨hleaves, fun r hr hphase => ?_, fun r hr q hq hphase hphase' hnumber => ?_⟩
  · obtain ⟨out, hout, hvalue⟩ := (hinv.members r hr).result_eq hphase
    refine ⟨out, hout, hvalue, fun hassoc => ?_⟩
    have hcons : (bracketing i.nranks).leaves = 0 :: List.range' 1 (i.nranks - 1) := by
      obtain ⟨k, hk⟩ := Nat.exists_eq_succ_of_ne_zero i.nranks_pos.ne'
      rw [hleaves, hk, List.range_eq_range', List.range'_succ]
      rfl
    rw [hvalue, result, Doubling.Tree.eval_eq_foldl hassoc _ _ hcons]
  · obtain ⟨out, hout, hvalue⟩ := (hinv.members r hr).result_eq hphase
    obtain ⟨out', hout', hvalue'⟩ := (hinv.members q hq).result_eq hphase'
    rw [hout, hout', Option.map_some, Option.map_some, hvalue, hvalue', hnumber]

/-- Three ranks that concatenate lists. -/
def threeRanks : Inputs (List Nat) where
  nranks := 3
  nranks_pos := by decide
  input := fun _ r => [r]
  op := fun _ left right => left ++ right

theorem run_reachable {ls : List Label} (hs : (system i).Reachable s)
    (hls : ∀ l ∈ ls, l.rank < i.nranks) (hrun : run (step i) ls s = .ok s') :
    (system i).Reachable s' :=
  System.Reach.run hs (fun l hl _ _ hstep => ⟨trivial, hls l hl, hstep⟩) hrun

/-- A run of the three ranks to the end. -/
def threeSteps : List Label :=
  [.writeOutDone 0, .writeOutDone 1, .writeInDone 1, .writeOutDone 2, .writeInDone 2,
    .eventLoop 0, .eventLoop 1, .deliver 1, .eventLoop 1, .completeSend 0, .eventLoop 0,
    .eventLoop 0, .writeOutDone 1, .eventLoop 1, .eventLoop 2, .deliver 1, .deliver 2,
    .completeSend 1, .completeSend 2, .eventLoop 1, .eventLoop 2, .eventLoop 1, .eventLoop 2,
    .writeOutDone 1, .eventLoop 1, .deliver 0, .eventLoop 0, .completeSend 1, .eventLoop 1]

theorem agreement_three : ∃ s, (system threeRanks).Reachable s
    ∧ ∀ r < 3, (s.members r).phase = .resultAvailable
      ∧ (s.members r).outBuffer.map Buf.value = some [0, 1, 2] := by
  obtain ⟨s, hrun, hphase, hnumber⟩ : ∃ s, run (step threeRanks) threeSteps (.initial threeRanks)
      = .ok s ∧ (∀ r < 3, (s.members r).phase = .resultAvailable) ∧ ∀ r < 3, s.number r = 0 :=
    ⟨_, rfl, by decide +kernel, by decide +kernel⟩
  have hs : (system threeRanks).Reachable s := run_reachable (.of_init rfl) (by decide) hrun
  refine ⟨s, hs, fun r hr => ⟨hphase r hr, ?_⟩⟩
  obtain ⟨out, hout, hvalue, -⟩ := (agreement threeRanks s hs).2.1 r hr (hphase r hr)
  rw [hout, Option.map_some, hvalue, hnumber r hr]
  rfl

end Rapidsmpf.AllReduce
