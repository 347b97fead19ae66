import Rapidsmpf.Lib.Fallible
import Rapidsmpf.Coll.Butterfly

/-!
# What a call of `event_loop` of an AllReduce does

`Local` says what the members of a rank are in each phase of its AllReduce. `event_loop_spec` is
the specification of `event_loop`: it never fails, it keeps `Local`, it posts the sends and
receives of at most one stage, and it changes the phase unless the rank waits for a buffer, a send
or a message.
-/

namespace Rapidsmpf.AllReduce

open Protocol Fallible

variable {α : Type} {i : Inputs α} {number r q : Nat} {a a' : Members α} {c c' : Comm α}
  {st : Stage} {s s' : Ranks α}

/-! ## The members of one rank -/

/-- The members of the rank `r` in its AllReduce of the given number, phase by phase. -/
inductive Local (i : Inputs α) (number r : Nat) : Members α → Prop where
  | startPreRemainder {input out : Buf α} {partner : Option Nat} :
      r < 2 * nonPow2Remainder i.nranks → out.value = i.input number r →
      Local i number r ⟨some input, some out, .startPreRemainder, logicalRankOf i.nranks r, 1,
        partner, none, none⟩
  | completePreRemainderEven {input : Buf α} {partner : Option Nat} {f : SendFuture α} :
      r < 2 * nonPow2Remainder i.nranks → r % 2 = 0 → f.dst = r + 1 → f.position = number →
      Local i number r ⟨some input, none, .completePreRemainder, logicalRankOf i.nranks r, 1,
        partner, some f, none⟩
  | completePreRemainderOdd {out : Buf α} {partner : Option Nat} {f : RecvFuture α} :
      r < 2 * nonPow2Remainder i.nranks → r % 2 = 1 → out.value = i.input number r →
      f.src = r - 1 → f.position = number →
      (f.complete = true → f.buffer.value = i.input number (r - 1)) →
      Local i number r ⟨none, some out, .completePreRemainder, logicalRankOf i.nranks r, 1,
        partner, none, some f⟩
  | startButterfly {input out : Buf α} {partner : Option Nat} {l j : Nat} :
      logicalRankOf i.nranks r = some l → j ≤ Nat.log2 i.nranks →
      out.value = stageValue i number j l →
      Local i number r ⟨some input, some out, .startButterfly, some l, 2 ^ j, partner, none, none⟩
  | completeButterfly {l j : Nat} {f : SendFuture α} {g : RecvFuture α} :
      logicalRankOf i.nranks r = some l → j < Nat.log2 i.nranks →
      f.dst = physicalRank i.nranks (l ^^^ 2 ^ j) → f.position = number →
      f.buffer.value = stageValue i number j l →
      g.src = physicalRank i.nranks (l ^^^ 2 ^ j) → g.position = number →
      (g.complete = true → g.buffer.value = stageValue i number j (l ^^^ 2 ^ j)) →
      Local i number r ⟨none, none, .completeButterfly, some l, 2 ^ j,
        some (physicalRank i.nranks (l ^^^ 2 ^ j)), some f, some g⟩
  | startPostRemainderEven {input out : Buf α} {logical partner : Option Nat} {mask : Nat} :
      r < 2 * nonPow2Remainder i.nranks → r % 2 = 0 →
      Local i number r ⟨some input, some out, .startPostRemainder, logical, mask, partner, none,
        none⟩
  | startPostRemainderOdd {input out : Buf α} {logical partner : Option Nat} :
      r < 2 * nonPow2Remainder i.nranks → r % 2 = 1 → out.value = result i number →
      Local i number r ⟨some input, some out, .startPostRemainder, logical,
        nearestPow2 i.nranks, partner, none, none⟩
  | completePostRemainderEven {input : Buf α} {logical partner : Option Nat} {mask : Nat}
      {f : RecvFuture α} :
      r < 2 * nonPow2Remainder i.nranks → r % 2 = 0 → f.src = r + 1 → f.position = number →
      (f.complete = true → f.buffer.value = result i number) →
      Local i number r ⟨some input, none, .completePostRemainder, logical, mask, partner, none,
        some f⟩
  | completePostRemainderOdd {input : Buf α} {logical partner : Option Nat} {f : SendFuture α} :
      r < 2 * nonPow2Remainder i.nranks → r % 2 = 1 → f.dst = r - 1 → f.position = number →
      f.buffer.value = result i number →
      Local i number r ⟨some input, none, .completePostRemainder, logical,
        nearestPow2 i.nranks, partner, some f, none⟩
  | resultAvailable {input out : Buf α} {logical partner : Option Nat} {mask : Nat} :
      out.value = result i number →
      ((∃ l, logicalRankOf i.nranks r = some l) → mask = nearestPow2 i.nranks) →
      Local i number r ⟨some input, some out, .resultAvailable, logical, mask, partner, none,
        none⟩

/-- Whether the rank has posted its sends and receives of a stage. -/
def posted (a : Members α) : Stage → Nat
  | .preRemainder => if a.phase = .startPreRemainder then 0 else 1
  | .butterfly mask =>
      if mask < a.stageMask ∨ mask = a.stageMask ∧ a.phase = .completeButterfly then 1 else 0
  | .postRemainder =>
      if a.phase = .completePostRemainder ∨ a.phase = .done ∨ a.phase = .resultAvailable then 1
      else 0

/-- The rank takes part in a stage. -/
def Involved (n : Nat) (st : Stage) (r : Nat) : Prop :=
  ∃ q, Exchanges n st r q ∨ Exchanges n st q r

theorem involved_preRemainder {n : Nat} (h : Involved n .preRemainder r) :
    r < 2 * nonPow2Remainder n := by
  obtain ⟨q, h | h⟩ := h
  · exact (Exchanges.preRemainder_iff.mp h).1
  · obtain ⟨hq, heven, rfl⟩ := Exchanges.preRemainder_iff.mp h
    omega

theorem involved_postRemainder {n : Nat} (h : Involved n .postRemainder r) :
    r < 2 * nonPow2Remainder n := by
  obtain ⟨q, h | h⟩ := h
  · obtain ⟨hq, heven, rfl⟩ := Exchanges.postRemainder_iff.mp h
    omega
  · exact (Exchanges.postRemainder_iff.mp h).1

/-- Taking part in a round of the butterfly. -/
theorem involved_butterfly {n mask : Nat} (hn : 0 < n) (h : Involved n (.butterfly mask) r) :
    ∃ l j, logicalRankOf n r = some l ∧ j < Nat.log2 n ∧ mask = 2 ^ j := by
  obtain ⟨q, h | h⟩ := h
  · obtain ⟨l, j, hl, hj, rfl, rfl, rfl⟩ := Exchanges.butterfly_iff.mp h
    exact ⟨l, j, logical_physical_rank hn hl, hj, rfl⟩
  · obtain ⟨l, j, hl, hj, rfl, rfl, rfl⟩ := Exchanges.butterfly_iff.mp h
    exact ⟨_, j, logical_physical_rank hn (partner_lt hl hj), hj, rfl⟩

/-- The constructor of an AllReduce. -/
theorem Local.make (i : Inputs α) (number r : Nat) :
    Local i number r (.make i.nranks r (i.input number r)) := by
  unfold Members.make
  split
  case isTrue hrem => exact .startPreRemainder hrem rfl
  case isFalse hrem =>
      obtain ⟨l, hl⟩ : ∃ l, logicalRankOf i.nranks r = some l := by
        rw [logicalRankOf, if_neg hrem]
        exact ⟨_, rfl⟩
      rw [hl]
      exact .startButterfly hl (Nat.zero_le _) (stage_value_zero hrem hl).symm

/-- A new AllReduce has posted nothing. -/
theorem posted_make (h : Involved i.nranks st r) (x : α) :
    posted (.make i.nranks r x) st = 0 := by
  cases st with
  | preRemainder => simp [posted, Members.make, involved_preRemainder h]
  | butterfly mask =>
      obtain ⟨l, j, -, -, rfl⟩ := involved_butterfly i.nranks_pos h
      have hpos := Nat.two_pow_pos j
      refine if_neg ?_
      rintro (hlt | ⟨-, hphase⟩)
      · change 2 ^ j < 1 at hlt
        omega
      · simp only [Members.make] at hphase
        split at hphase <;> cases hphase
  | postRemainder =>
      refine if_neg ?_
      simp only [Members.make]
      split <;> simp

/-- A finished AllReduce has posted everything. -/
theorem posted_result_available (h : Involved i.nranks st r)
    (hlocal : Local i number r a) (hphase : a.phase = .resultAvailable) : posted a st = 1 := by
  cases hlocal with
  | resultAvailable hvalue hmask =>
      cases st with
      | preRemainder => simp [posted]
      | butterfly mask =>
          obtain ⟨l, j, hl, hj, rfl⟩ := involved_butterfly i.nranks_pos h
          have hlt : 2 ^ j < nearestPow2 i.nranks := Nat.pow_lt_pow_right (by decide) hj
          simp [posted, hmask ⟨l, hl⟩, hlt]
      | postRemainder => simp [posted]
  | _ => cases hphase

/-! ## What a call of `event_loop` does -/

/-- The rank `r` posted its sends and receives of a stage, and nothing else happened on the
channels. -/
structure Posts (i : Inputs α) (number r : Nat) (st : Stage) (c c' : Comm α) : Prop where
  sends : ∀ q, Exchanges i.nranks st r q →
    (c' (r, q)).sent = (c (r, q)).sent ++ [((number, st), carried i number r st)]
  takes : ∀ q, Exchanges i.nranks st q r → (c' (q, r)).taken = (c (q, r)).taken ++ [(number, st)]
  sent : ∀ k : Nat × Nat, (k.1 = r → ¬ Exchanges i.nranks st r k.2) → (c' k).sent = (c k).sent
  taken : ∀ k : Nat × Nat, (k.2 = r → ¬ Exchanges i.nranks st k.1 r) → (c' k).taken = (c k).taken

/-- A stage with one send. -/
theorem Posts.send {dst : Nat} {v : α} (hdst : ∀ q, Exchanges i.nranks st r q ↔ q = dst)
    (hsrc : ∀ q, ¬ Exchanges i.nranks st q r) (hv : v = carried i number r st) :
    Posts i number r st c (Function.update c (r, dst) ((c (r, dst)).send (number, st) v)) := by
  refine ⟨fun q hq => ?_, fun q hq => absurd hq (hsrc q), fun k hk => ?_, fun k _ => ?_⟩
  · obtain rfl := (hdst q).mp hq
    simp [hv]
  · by_cases heq : k = (r, dst)
    · subst heq
      exact absurd ((hdst dst).mpr rfl) (hk rfl)
    · rw [Function.update_of_ne heq]
  · by_cases heq : k = (r, dst)
    · subst heq
      simp
    · rw [Function.update_of_ne heq]

/-- A stage with one receive. -/
theorem Posts.recv {src : Nat} (hsrc : ∀ q, Exchanges i.nranks st q r ↔ q = src)
    (hdst : ∀ q, ¬ Exchanges i.nranks st r q) :
    Posts i number r st c (Function.update c (src, r) ((c (src, r)).post (number, st))) := by
  refine ⟨fun q hq => absurd hq (hdst q), fun q hq => ?_, fun k _ => ?_, fun k hk => ?_⟩
  · obtain rfl := (hsrc q).mp hq
    simp
  · by_cases heq : k = (src, r)
    · subst heq
      simp
    · rw [Function.update_of_ne heq]
  · by_cases heq : k = (src, r)
    · subst heq
      exact absurd ((hsrc src).mpr rfl) (hk rfl)
    · rw [Function.update_of_ne heq]

/-- A stage in which two ranks exchange messages. -/
theorem Posts.both {p : Nat} {v : α} (hne : p ≠ r)
    (hdst : ∀ q, Exchanges i.nranks st r q ↔ q = p)
    (hsrc : ∀ q, Exchanges i.nranks st q r ↔ q = p) (hv : v = carried i number r st) :
    Posts i number r st c (Function.update
      (Function.update c (p, r) ((c (p, r)).post (number, st))) (r, p)
      ((c (r, p)).send (number, st) v)) := by
  have hkeys : (p, r) ≠ (r, p) := fun h => hne (congrArg Prod.fst h)
  refine ⟨fun q hq => ?_, fun q hq => ?_, fun k hk => ?_, fun k hk => ?_⟩
  · obtain rfl := (hdst q).mp hq
    simp [hv]
  · obtain rfl := (hsrc q).mp hq
    rw [Function.update_of_ne hkeys]
    simp
  · by_cases hsend : k = (r, p)
    · subst hsend
      exact absurd ((hdst p).mpr rfl) (hk rfl)
    · rw [Function.update_of_ne hsend]
      by_cases hrecv : k = (p, r)
      · subst hrecv
        simp
      · rw [Function.update_of_ne hrecv]
  · by_cases hsend : k = (r, p)
    · subst hsend
      simp
    · rw [Function.update_of_ne hsend]
      by_cases hrecv : k = (p, r)
      · subst hrecv
        exact absurd ((hsrc p).mpr rfl) (hk rfl)
      · rw [Function.update_of_ne hrecv]

/-- The rank waits for something outside `event_loop`. -/
def Waits (a : Members α) : Prop :=
  (∃ b, a.inBuffer = some b ∧ b.writeDone = false)
    ∨ (∃ b, a.outBuffer = some b ∧ b.writeDone = false)
    ∨ (∃ f, a.sendFuture = some f ∧ f.complete = false)
    ∨ ∃ f, a.recvFuture = some f ∧ f.complete = false

/-- What a call did: it changed the phase or the rank waits, and it posted one stage or none. -/
structure Calls (i : Inputs α) (number r : Nat) (a a' : Members α) (c c' : Comm α) : Prop where
  members : Local i number r a'
  moves : a'.phase = a.phase → Waits a
  channels : (c' = c ∧ ∀ st, Involved i.nranks st r → posted a' st = posted a st)
    ∨ ∃ st, posted a st = 0 ∧ posted a' st = 1 ∧ Posts i number r st c c'
      ∧ ∀ st', Involved i.nranks st' r → st' ≠ st → posted a' st' = posted a st'

/-- The channels of the rank `r` have as many messages and receives as it has posted. -/
structure Counted (i : Inputs α) (number r : Nat) (a : Members α) (c : Comm α) : Prop where
  sent : ∀ st q, Exchanges i.nranks st r q → (c (r, q)).sent.length = number + posted a st
  taken : ∀ st q, Exchanges i.nranks st q r → (c (q, r)).matched = number + posted a st

/-- The call changed nothing. -/
theorem Calls.same (h : Local i number r a) (hwaits : Waits a) : Calls i number r a a c c :=
  ⟨h, fun _ => hwaits, Or.inl ⟨rfl, fun _ _ => rfl⟩⟩

/-- A call of `event_loop` from a state of the rank. -/
def Spec (i : Inputs α) (number r : Nat) (a : Members α) (c : Comm α) : Prop :=
  ∃ a' c', eventLoop i.nranks r (i.op number) number a c = .ok (a', c')
    ∧ Calls i number r a a' c c'

/-- A call that finds it has to wait. -/
theorem Spec.wait (h : Local i number r a) (hwaits : Waits a)
    (heq : eventLoop i.nranks r (i.op number) number a c = .ok (a, c)) : Spec i number r a c :=
  ⟨a, c, heq, .same h hwaits⟩

/-- A call that leaves the channels alone. -/
theorem Spec.quiet (a' : Members α)
    (heq : eventLoop i.nranks r (i.op number) number a c = .ok (a', c))
    (h : Local i number r a') (hphase : a'.phase ≠ a.phase)
    (hposted : ∀ st, Involved i.nranks st r → posted a' st = posted a st) :
    Spec i number r a c :=
  ⟨a', c, heq, h, fun heq => absurd heq hphase, Or.inl ⟨rfl, hposted⟩⟩

/-- A call that posts a stage. -/
theorem Spec.post (st : Stage) (a' : Members α)
    (heq : eventLoop i.nranks r (i.op number) number a c = .ok (a', c'))
    (h : Local i number r a') (hphase : a'.phase ≠ a.phase) (hbefore : posted a st = 0)
    (hafter : posted a' st = 1) (hposts : Posts i number r st c c')
    (hothers : ∀ st', Involved i.nranks st' r → st' ≠ st → posted a' st' = posted a st') :
    Spec i number r a c :=
  ⟨a', c', heq, h, fun heq => absurd heq hphase,
    Or.inr ⟨st, hbefore, hafter, hposts, hothers⟩⟩

/-- `StartPreRemainder` of an even rank, which sends its contribution. -/
theorem start_pre_remainder_even {input out : Buf α} {partner : Option Nat}
    (hrem : r < 2 * nonPow2Remainder i.nranks) (heven : r % 2 = 0)
    (hvalue : out.value = i.input number r) (hdone : out.writeDone = true)
    (hc : Counted i number r ⟨some input, some out, .startPreRemainder,
      logicalRankOf i.nranks r, 1, partner, none, none⟩ c) :
    Spec i number r ⟨some input, some out, .startPreRemainder, logicalRankOf i.nranks r, 1,
      partner, none, none⟩ c := by
  have hdst : ∀ q, Exchanges i.nranks .preRemainder r q ↔ q = r + 1 := fun q => by
    simp [Exchanges.preRemainder_iff, hrem, heven]
  have hsrc : ∀ q, ¬ Exchanges i.nranks .preRemainder q r := fun q hq => by
    obtain ⟨-, heven', rfl⟩ := Exchanges.preRemainder_iff.mp hq
    omega
  have hposition := hc.sent _ _ ((hdst _).mpr rfl)
  refine Spec.post .preRemainder ⟨some input, none, .completePreRemainder,
    logicalRankOf i.nranks r, 1, partner, some ⟨r + 1, (c (r, r + 1)).sent.length, out, false⟩,
    none⟩ ?_ (.completePreRemainderEven hrem heven rfl hposition) nofun rfl rfl
    (.send hdst hsrc hvalue) fun st' _ hne => ?_
  · simp [eventLoop, startPreRemainder, deref, heven, hdone, publish, bind, Except.bind, pure,
      Except.pure, Comm.send]
  · cases st' with
    | preRemainder => exact absurd rfl hne
    | butterfly mask => simp [posted]
    | postRemainder => simp [posted]

/-- `StartPreRemainder` of an odd rank, which receives the contribution of its pair. -/
theorem start_pre_remainder_odd {input out : Buf α} {partner : Option Nat}
    (hrem : r < 2 * nonPow2Remainder i.nranks) (hodd : r % 2 = 1)
    (hvalue : out.value = i.input number r) (hdone : out.writeDone = true)
    (hdone' : input.writeDone = true)
    (hc : Counted i number r ⟨some input, some out, .startPreRemainder,
      logicalRankOf i.nranks r, 1, partner, none, none⟩ c) :
    Spec i number r ⟨some input, some out, .startPreRemainder, logicalRankOf i.nranks r, 1,
      partner, none, none⟩ c := by
  have hsrc : ∀ q, Exchanges i.nranks .preRemainder q r ↔ q = r - 1 := fun q => by
    rw [Exchanges.preRemainder_iff]
    omega
  have hdst : ∀ q, ¬ Exchanges i.nranks .preRemainder r q := fun q hq => by
    obtain ⟨-, heven, -⟩ := Exchanges.preRemainder_iff.mp hq
    omega
  have hposition := hc.taken _ _ ((hsrc _).mpr rfl)
  refine Spec.post .preRemainder ⟨none, some out, .completePreRemainder,
    logicalRankOf i.nranks r, 1, partner, none, some ⟨r - 1, (c (r - 1, r)).matched, input, false⟩⟩
    ?_ (.completePreRemainderOdd hrem hodd hvalue rfl hposition nofun) nofun rfl rfl
    (.recv hsrc hdst) fun st' _ hne => ?_
  · simp [eventLoop, startPreRemainder, deref, hodd, hdone, hdone', publish, bind, Except.bind,
      pure, Except.pure, Comm.recv]
  · cases st' with
    | preRemainder => exact absurd rfl hne
    | butterfly mask => simp [posted]
    | postRemainder => simp [posted]

/-- `StartButterfly` in a round. -/
theorem start_butterfly_round {input out : Buf α} {partner : Option Nat} {l j : Nat}
    (hr : r < i.nranks) (hl : logicalRankOf i.nranks r = some l) (hj : j < Nat.log2 i.nranks)
    (hvalue : out.value = stageValue i number j l) (hdone : out.writeDone = true)
    (hdone' : input.writeDone = true)
    (hc : Counted i number r ⟨some input, some out, .startButterfly, some l, 2 ^ j, partner, none,
      none⟩ c) :
    Spec i number r ⟨some input, some out, .startButterfly, some l, 2 ^ j, partner, none, none⟩
      c := by
  obtain ⟨hlt, hphysical⟩ := (logical_rank_eq_some_iff i.nranks_pos hr).mp hl
  let p := physicalRank i.nranks (l ^^^ 2 ^ j)
  have hdst : ∀ q, Exchanges i.nranks (.butterfly (2 ^ j)) r q ↔ q = p := by
    intro q
    constructor
    · intro h
      obtain ⟨l', j', -, -, hpow, hq, rfl⟩ := Exchanges.butterfly_iff.mp h
      obtain rfl := physical_rank_inj.mp (hphysical.trans hq)
      rw [← hpow]
    · rintro rfl
      rw [← hphysical]
      exact .butterfly hlt hj
  have hsrc : ∀ q, Exchanges i.nranks (.butterfly (2 ^ j)) q r ↔ q = p := by
    intro q
    constructor
    · intro h
      obtain ⟨l', j', -, -, hpow, rfl, hq⟩ := Exchanges.butterfly_iff.mp h
      have heq : l = l' ^^^ 2 ^ j' := physical_rank_inj.mp (hphysical.trans hq)
      rw [physical_rank_inj, heq, hpow, partner_partner]
    · rintro rfl
      have hback : r = physicalRank i.nranks (l ^^^ 2 ^ j ^^^ 2 ^ j) := by
        rw [partner_partner, hphysical]
      rw [hback]
      exact .butterfly (partner_lt hlt hj) hj
  have hne : p ≠ r := fun h => by
    rw [← hphysical] at h
    exact partner_ne l j (physical_rank_inj.mp h)
  have hcarried : out.value = carried i number r (.butterfly (2 ^ j)) := by
    rw [hvalue, ← hphysical, carried_butterfly hlt]
  have hmask : ¬ nearestPow2 i.nranks ≤ 2 ^ j :=
    Nat.not_le.mpr (Nat.pow_lt_pow_right (by decide) hj)
  have hkeys : (r, p) ≠ (p, r) := fun h => hne (congrArg Prod.snd h)
  refine Spec.post (.butterfly (2 ^ j)) ⟨none, none, .completeButterfly, some l, 2 ^ j, some p,
    some ⟨p, (c (r, p)).sent.length, out, false⟩, some ⟨p, (c (p, r)).matched, input, false⟩⟩
    ?_ (.completeButterfly hl hj rfl ?_ hvalue rfl ?_ nofun) nofun ?_ ?_
    (.both hne hdst hsrc hcarried) fun st' _ hne' => ?_
  · simp [eventLoop, startButterfly, deref, hmask, hdone, hdone', publish, bind, Except.bind, pure,
      Except.pure, Comm.recv, Comm.send, p, hkeys]
  · have hposition := hc.sent _ _ ((hdst p).mpr rfl)
    simpa [posted] using hposition
  · have hposition := hc.taken _ _ ((hsrc p).mpr rfl)
    simpa [posted] using hposition
  · simp [posted]
  · simp [posted]
  · cases st' with
    | preRemainder => simp [posted]
    | butterfly mask =>
        have hmask' : mask ≠ 2 ^ j := fun h => hne' (h ▸ rfl)
        simp [posted, hmask']
    | postRemainder => simp [posted]

/-- `StartButterfly` after the last round. -/
theorem start_butterfly_last {input out : Buf α} {partner : Option Nat} {l : Nat}
    (hr : r < i.nranks) (hl : logicalRankOf i.nranks r = some l)
    (hvalue : out.value = stageValue i number (Nat.log2 i.nranks) l) :
    Spec i number r ⟨some input, some out, .startButterfly, some l, nearestPow2 i.nranks, partner,
      none, none⟩ c := by
  have hlt := ((logical_rank_eq_some_iff i.nranks_pos hr).mp hl).1
  rw [stage_value_last hlt] at hvalue
  by_cases hrem : r < 2 * nonPow2Remainder i.nranks
  · have hodd : r % 2 = 1 := by
      rw [logicalRankOf, if_pos hrem] at hl
      split at hl
      · cases hl
      · omega
    refine Spec.quiet ⟨some input, some out, .startPostRemainder, some l, nearestPow2 i.nranks,
      partner, none, none⟩ ?_ (.startPostRemainderOdd hrem hodd hvalue) (fun h => by cases h)
      fun st _ => ?_
    · simp [eventLoop, startButterfly, hrem, publish, bind, Except.bind, pure, Except.pure]
    · cases st <;> simp [posted]
  · refine Spec.quiet ⟨some input, some out, .resultAvailable, some l, nearestPow2 i.nranks,
      partner, none, none⟩ ?_ (.resultAvailable hvalue fun _ => rfl) (fun h => by cases h)
      fun st hst => ?_
    · simp [eventLoop, startButterfly, hrem, publish, bind, Except.bind, pure, Except.pure]
    · cases st with
      | preRemainder => simp [posted]
      | butterfly mask => simp [posted]
      | postRemainder => exact absurd (involved_postRemainder hst) hrem

/-- `CompletePreRemainder` of an even rank, whose send is complete. -/
theorem complete_pre_remainder_even {input : Buf α} {logical partner : Option Nat}
    {f : SendFuture α} (hrem : r < 2 * nonPow2Remainder i.nranks) (heven : r % 2 = 0)
    (hcomplete : f.complete = true) :
    Spec i number r ⟨some input, none, .completePreRemainder, logical, 1, partner, some f, none⟩
      c := by
  refine Spec.quiet ⟨some input, some f.buffer, .startPostRemainder, logical, 1, partner, none,
    none⟩ ?_ (.startPostRemainderEven hrem heven) nofun fun st _ => ?_
  · simp [eventLoop, completePreRemainder, deref, heven, hcomplete, publish, bind, Except.bind,
      pure, Except.pure]
  · cases st <;> simp [posted]

/-- `CompletePreRemainder` of an odd rank, which combines the two contributions. -/
theorem complete_pre_remainder_odd {out : Buf α} {partner : Option Nat} {f : RecvFuture α}
    (hrem : r < 2 * nonPow2Remainder i.nranks) (hodd : r % 2 = 1)
    (hvalue : out.value = i.input number r) (hcomplete : f.complete = true)
    (hreceived : f.buffer.value = i.input number (r - 1)) :
    Spec i number r ⟨none, some out, .completePreRemainder, logicalRankOf i.nranks r, 1, partner,
      none, some f⟩ c := by
  obtain ⟨l, hl⟩ : ∃ l, logicalRankOf i.nranks r = some l := by
    rw [logicalRankOf, if_pos hrem, if_neg (by omega)]
    exact ⟨_, rfl⟩
  have hstage : (reduce (i.op number) f.buffer out).value = stageValue i number 0 l := by
    rw [stage_value_pair hrem hodd hl, reduce, hreceived, hvalue]
  refine Spec.quiet ⟨some f.buffer, some (reduce (i.op number) f.buffer out), .startButterfly,
    logicalRankOf i.nranks r, 1, partner, none, none⟩ ?_ ?_ (fun h => by cases h) fun st _ => ?_
  · simp [eventLoop, completePreRemainder, deref, hodd, hcomplete, publish, bind, Except.bind,
      pure, Except.pure]
  · rw [hl]
    exact .startButterfly hl (Nat.zero_le _) hstage
  · cases st <;> simp [posted]

/-- `CompleteButterfly`: both partners combine their values in the order of their ranks. -/
theorem complete_butterfly_round {l j : Nat} {f : SendFuture α} {g : RecvFuture α}
    (hr : r < i.nranks) (hl : logicalRankOf i.nranks r = some l) (hj : j < Nat.log2 i.nranks)
    (hvalue : f.buffer.value = stageValue i number j l) (hsent : f.complete = true)
    (hreceived : g.buffer.value = stageValue i number j (l ^^^ 2 ^ j))
    (hcomplete : g.complete = true) :
    Spec i number r ⟨none, none, .completeButterfly, some l, 2 ^ j,
      some (physicalRank i.nranks (l ^^^ 2 ^ j)), some f, some g⟩ c := by
  obtain ⟨-, hphysical⟩ := (logical_rank_eq_some_iff i.nranks_pos hr).mp hl
  have horder : physicalRank i.nranks (l ^^^ 2 ^ j) < r ↔ l ^^^ 2 ^ j < l := by
    rw [← hphysical, physical_rank_lt_iff]
  have hshift : 2 ^ j <<< 1 = 2 ^ (j + 1) := by rw [Nat.shiftLeft_eq, pow_one, pow_succ]
  have hposted : ∀ (input out : Buf α) (partner : Option Nat) (st : Stage),
      Involved i.nranks st r →
      posted (⟨some input, some out, .startButterfly, some l, 2 ^ (j + 1), partner, none, none⟩
          : Members α) st
        = posted ⟨none, none, .completeButterfly, some l, 2 ^ j, partner, some f, some g⟩ st := by
    intro input out partner st hst
    cases st with
    | preRemainder => simp [posted]
    | butterfly mask =>
        obtain ⟨-, j', -, -, rfl⟩ := involved_butterfly i.nranks_pos hst
        have hiff : 2 ^ j' < 2 ^ (j + 1) ↔ 2 ^ j' < 2 ^ j ∨ 2 ^ j' = 2 ^ j := by
          rw [Nat.pow_lt_pow_iff_right (by decide), Nat.lt_succ_iff_lt_or_eq,
            Nat.pow_lt_pow_iff_right (by decide), Nat.pow_right_inj (by decide)]
        simp [posted, hiff]
    | postRemainder => simp [posted]
  by_cases hlt : l ^^^ 2 ^ j < l
  · have hstage : (reduce (i.op number) g.buffer f.buffer).value
        = stageValue i number (j + 1) l := by
      rw [stage_value_succ, if_pos hlt, reduce, hreceived, hvalue]
    refine Spec.quiet ⟨some g.buffer, some (reduce (i.op number) g.buffer f.buffer),
      .startButterfly, some l, 2 ^ (j + 1), some (physicalRank i.nranks (l ^^^ 2 ^ j)), none,
      none⟩ ?_ (.startButterfly hl hj hstage) nofun (hposted _ _ _)
    simp [eventLoop, completeButterfly, deref, hcomplete, hsent, horder.mpr hlt, hshift, publish,
      bind, Except.bind, pure, Except.pure]
  · have hstage : (reduce (i.op number) f.buffer g.buffer).value
        = stageValue i number (j + 1) l := by
      rw [stage_value_succ, if_neg hlt, reduce, hreceived, hvalue]
    refine Spec.quiet ⟨some f.buffer, some (reduce (i.op number) f.buffer g.buffer),
      .startButterfly, some l, 2 ^ (j + 1), some (physicalRank i.nranks (l ^^^ 2 ^ j)), none,
      none⟩ ?_ (.startButterfly hl hj hstage) nofun (hposted _ _ _)
    simp [eventLoop, completeButterfly, deref, hcomplete, hsent, mt horder.mp hlt, hshift, publish,
      bind, Except.bind, pure, Except.pure]

/-- `StartPostRemainder` of an even rank, which waits for the result. -/
theorem start_post_remainder_even {input out : Buf α} {logical partner : Option Nat} {mask : Nat}
    (hrem : r < 2 * nonPow2Remainder i.nranks) (heven : r % 2 = 0) (hdone : out.writeDone = true)
    (hc : Counted i number r ⟨some input, some out, .startPostRemainder, logical, mask, partner,
      none, none⟩ c) :
    Spec i number r ⟨some input, some out, .startPostRemainder, logical, mask, partner, none,
      none⟩ c := by
  have hsrc : ∀ q, Exchanges i.nranks .postRemainder q r ↔ q = r + 1 := fun q => by
    simp [Exchanges.postRemainder_iff, hrem, heven]
  have hdst : ∀ q, ¬ Exchanges i.nranks .postRemainder r q := fun q hq => by
    obtain ⟨-, heven', rfl⟩ := Exchanges.postRemainder_iff.mp hq
    omega
  have hposition := hc.taken _ _ ((hsrc _).mpr rfl)
  refine Spec.post .postRemainder ⟨some input, none, .completePostRemainder, logical, mask,
    partner, none, some ⟨r + 1, (c (r + 1, r)).matched, out, false⟩⟩ ?_
    (.completePostRemainderEven hrem heven rfl hposition nofun) nofun rfl rfl
    (.recv hsrc hdst) fun st' _ hne => ?_
  · simp [eventLoop, startPostRemainder, deref, heven, hdone, publish, bind, Except.bind, pure,
      Except.pure, Comm.recv]
  · cases st' with
    | preRemainder => simp [posted]
    | butterfly mask' => simp [posted]
    | postRemainder => exact absurd rfl hne

/-- `StartPostRemainder` of an odd rank, which sends the result to its pair. -/
theorem start_post_remainder_odd {input out : Buf α} {logical partner : Option Nat}
    (hrem : r < 2 * nonPow2Remainder i.nranks) (hodd : r % 2 = 1)
    (hvalue : out.value = result i number) (hdone : out.writeDone = true)
    (hc : Counted i number r ⟨some input, some out, .startPostRemainder, logical,
      nearestPow2 i.nranks, partner, none, none⟩ c) :
    Spec i number r ⟨some input, some out, .startPostRemainder, logical, nearestPow2 i.nranks,
      partner, none, none⟩ c := by
  have hdst : ∀ q, Exchanges i.nranks .postRemainder r q ↔ q = r - 1 := fun q => by
    rw [Exchanges.postRemainder_iff]
    omega
  have hsrc : ∀ q, ¬ Exchanges i.nranks .postRemainder q r := fun q hq => by
    obtain ⟨-, heven, -⟩ := Exchanges.postRemainder_iff.mp hq
    omega
  have hposition := hc.sent _ _ ((hdst _).mpr rfl)
  refine Spec.post .postRemainder ⟨some input, none, .completePostRemainder, logical,
    nearestPow2 i.nranks, partner, some ⟨r - 1, (c (r, r - 1)).sent.length, out, false⟩, none⟩ ?_
    (.completePostRemainderOdd hrem hodd rfl hposition hvalue) nofun rfl rfl
    (.send hdst hsrc hvalue) fun st' _ hne => ?_
  · simp [eventLoop, startPostRemainder, deref, hodd, hdone, publish, bind, Except.bind, pure,
      Except.pure, Comm.send]
  · cases st' with
    | preRemainder => simp [posted]
    | butterfly mask' => simp [posted]
    | postRemainder => exact absurd rfl hne

/-- `CompletePostRemainder` of an even rank. -/
theorem complete_post_remainder_even {input : Buf α} {logical partner : Option Nat} {mask : Nat}
    {f : RecvFuture α} (hrem : r < 2 * nonPow2Remainder i.nranks) (heven : r % 2 = 0)
    (hcomplete : f.complete = true) (hreceived : f.buffer.value = result i number) :
    Spec i number r ⟨some input, none, .completePostRemainder, logical, mask, partner, none,
      some f⟩ c := by
  have hnone : ¬ ∃ l, logicalRankOf i.nranks r = some l := by
    rw [logicalRankOf, if_pos hrem, if_pos heven]
    rintro ⟨l, hl⟩
    cases hl
  refine Spec.quiet ⟨some input, some f.buffer, .resultAvailable, logical, mask, partner, none,
    none⟩ ?_ (.resultAvailable hreceived fun h => absurd h hnone) (fun h => by cases h)
    fun st _ => ?_
  · simp [eventLoop, completePostRemainder, deref, heven, hcomplete, publish, bind, Except.bind,
      pure, Except.pure]
  · cases st <;> simp [posted]

/-- `CompletePostRemainder` of an odd rank. -/
theorem complete_post_remainder_odd {input : Buf α} {logical partner : Option Nat}
    {f : SendFuture α} (hodd : r % 2 = 1) (hcomplete : f.complete = true)
    (hvalue : f.buffer.value = result i number) :
    Spec i number r ⟨some input, none, .completePostRemainder, logical, nearestPow2 i.nranks,
      partner, some f, none⟩ c := by
  refine Spec.quiet ⟨some input, some f.buffer, .resultAvailable, logical, nearestPow2 i.nranks,
    partner, none, none⟩ ?_ (.resultAvailable hvalue fun _ => rfl) nofun fun st _ => ?_
  · simp [eventLoop, completePostRemainder, deref, hodd, hcomplete, publish, bind, Except.bind,
      pure, Except.pure]
  · cases st <;> simp [posted]

/-- A call of `event_loop` never fails, keeps what is known of the members, posts at most one stage
and changes the phase unless the rank waits. -/
theorem event_loop_spec (hr : r < i.nranks) (h : Local i number r a)
    (hphase : a.phase ≠ .resultAvailable) (hc : Counted i number r a c) :
    Spec i number r a c := by
  have hlocal := h
  cases h with
  | @startPreRemainder input out partner hrem hvalue =>
      cases hout : out.writeDone with
      | false =>
          refine .wait hlocal (Or.inr (Or.inl ⟨out, rfl, hout⟩)) ?_
          simp [eventLoop, startPreRemainder, deref, hout, publish, bind, Except.bind, pure,
            Except.pure]
      | true =>
          rcases Nat.mod_two_eq_zero_or_one r with heven | hodd
          · exact start_pre_remainder_even hrem heven hvalue hout hc
          · cases hin : input.writeDone with
            | false =>
                refine .wait hlocal (Or.inl ⟨input, rfl, hin⟩) ?_
                simp [eventLoop, startPreRemainder, deref, hodd, hout, hin, publish, bind,
                  Except.bind, pure, Except.pure]
            | true => exact start_pre_remainder_odd hrem hodd hvalue hout hin hc
  | @completePreRemainderEven input partner f hrem heven hdst hposition =>
      cases hf : f.complete with
      | false =>
          refine .wait hlocal (Or.inr (Or.inr (Or.inl ⟨f, rfl, hf⟩))) ?_
          simp [eventLoop, completePreRemainder, deref, heven, hf, publish, bind, Except.bind,
            pure, Except.pure]
      | true => exact complete_pre_remainder_even hrem heven hf
  | @completePreRemainderOdd out partner f hrem hodd hvalue hsrc hposition hreceived =>
      cases hf : f.complete with
      | false =>
          refine .wait hlocal (Or.inr (Or.inr (Or.inr ⟨f, rfl, hf⟩))) ?_
          simp [eventLoop, completePreRemainder, deref, hodd, hf, publish, bind, Except.bind, pure,
            Except.pure]
      | true => exact complete_pre_remainder_odd hrem hodd hvalue hf (hreceived hf)
  | @startButterfly input out partner l j hl hj hvalue =>
      rcases Nat.lt_or_eq_of_le hj with hlt | rfl
      · have hmask : ¬ nearestPow2 i.nranks ≤ 2 ^ j :=
          Nat.not_le.mpr (Nat.pow_lt_pow_right (by decide) hlt)
        cases hout : out.writeDone with
        | false =>
            refine ⟨⟨some input, some out, .startButterfly, some l, 2 ^ j,
              some (physicalRank i.nranks (l ^^^ 2 ^ j)), none, none⟩, c, ?_,
              .startButterfly hl hj hvalue, fun _ => Or.inr (Or.inl ⟨out, rfl, hout⟩),
              Or.inl ⟨rfl, fun st _ => ?_⟩⟩
            · simp [eventLoop, startButterfly, deref, hmask, hout, publish, bind, Except.bind,
                pure, Except.pure]
            · cases st <;> simp [posted]
        | true =>
            cases hin : input.writeDone with
            | false =>
                refine ⟨⟨some input, some out, .startButterfly, some l, 2 ^ j,
                  some (physicalRank i.nranks (l ^^^ 2 ^ j)), none, none⟩, c, ?_,
                  .startButterfly hl hj hvalue, fun _ => Or.inl ⟨input, rfl, hin⟩,
                  Or.inl ⟨rfl, fun st _ => ?_⟩⟩
                · simp [eventLoop, startButterfly, deref, hmask, hout, hin, publish, bind,
                    Except.bind, pure, Except.pure]
                · cases st <;> simp [posted]
            | true => exact start_butterfly_round hr hl hlt hvalue hout hin hc
      · exact start_butterfly_last hr hl hvalue
  | @completeButterfly l j f g hl hj hdst hpos hvalue hsrc hpos' hreceived =>
      cases hg : g.complete with
      | false =>
          refine .wait hlocal (Or.inr (Or.inr (Or.inr ⟨g, rfl, hg⟩))) ?_
          simp [eventLoop, completeButterfly, deref, hg, publish, bind, Except.bind, pure,
            Except.pure]
      | true =>
          cases hf : f.complete with
          | false =>
              refine .wait hlocal (Or.inr (Or.inr (Or.inl ⟨f, rfl, hf⟩))) ?_
              simp [eventLoop, completeButterfly, deref, hg, hf, publish, bind, Except.bind, pure,
                Except.pure]
          | true => exact complete_butterfly_round hr hl hj hvalue hf (hreceived hg) hg
  | @startPostRemainderEven input out logical partner mask hrem heven =>
      cases hout : out.writeDone with
      | false =>
          refine .wait hlocal (Or.inr (Or.inl ⟨out, rfl, hout⟩)) ?_
          simp [eventLoop, startPostRemainder, deref, hout, publish, bind, Except.bind, pure,
            Except.pure]
      | true => exact start_post_remainder_even hrem heven hout hc
  | @startPostRemainderOdd input out logical partner hrem hodd hvalue =>
      cases hout : out.writeDone with
      | false =>
          refine .wait hlocal (Or.inr (Or.inl ⟨out, rfl, hout⟩)) ?_
          simp [eventLoop, startPostRemainder, deref, hout, publish, bind, Except.bind, pure,
            Except.pure]
      | true => exact start_post_remainder_odd hrem hodd hvalue hout hc
  | @completePostRemainderEven input logical partner mask f hrem heven hsrc hpos hreceived =>
      cases hf : f.complete with
      | false =>
          refine .wait hlocal (Or.inr (Or.inr (Or.inr ⟨f, rfl, hf⟩))) ?_
          simp [eventLoop, completePostRemainder, deref, heven, hf, publish, bind, Except.bind,
            pure, Except.pure]
      | true => exact complete_post_remainder_even hrem heven hf (hreceived hf)
  | @completePostRemainderOdd input logical partner f hrem hodd hdst hpos hvalue =>
      cases hf : f.complete with
      | false =>
          refine .wait hlocal (Or.inr (Or.inr (Or.inl ⟨f, rfl, hf⟩))) ?_
          simp [eventLoop, completePostRemainder, deref, hodd, hf, publish, bind, Except.bind,
            pure, Except.pure]
      | true => exact complete_post_remainder_odd hodd hf hvalue
  | resultAvailable hvalue hmask => exact absurd rfl hphase

end Rapidsmpf.AllReduce
