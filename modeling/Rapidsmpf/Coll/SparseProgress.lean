import Rapidsmpf.Coll.SparseCalls

/-!
# The progress of a SparseAlltoall

`event_loop` and the construction of the next SparseAlltoall keep what every run keeps, so that it
holds in every reachable state (`reachable_inv`). A rank may go on as soon as its own SparseAlltoall
is done, since the messages that its sources sent for it have all been received then
(`Link.all_received`).
-/

namespace Rapidsmpf.Coll.SparseAlltoall

open Protocol Fallible ListFacts
open AllGather (ofNumber itemsOf)

variable {n : Nat} {peers : Peers n} {p q r e : Nat} {s s' : Ranks} {h got rest : List (Nat × Msg)}
  {prod : List Msg} {box : List Chunk} {c c' : Comm} {a : Endpoint} {env : Env}
  {front : List (Nat × Item)} {complete pending waiting : List Item}

/-! ## One call of `event_loop` -/

/-- What a call of `event_loop` is made of: what is ready is sent, and then it is received. -/
structure Looped (p e : Nat) (s₀ s₁ s₂ : State) : Prop where
  sends : ∃ rest, Sends p ({ s₀.1 with outgoing := rest }, s₀.2) s₁
  sending : ∀ r prod h calls, Sending p r e prod (calls ++ s₀.1.outgoing) s₀.2 h →
    ∃ new, Sending p r e prod (calls ++ s₁.1.outgoing) s₁.2 (h ++ new) ∧ ∀ x ∈ new, x.1 = e
  receipt : Receipt p e s₁ s₂

theorem Origins.congr {a a' : Endpoint} (ho : Origins a) (hs : a'.sourceStates = a.sourceStates)
    (hp : a'.receivePosted = a.receivePosted) : Origins a' := by
  refine ⟨fun src => ?_, ?_⟩
  · rw [hs]
    exact ho.incoming src
  · rw [hp]
    exact ho.posted

/-- `event_loop`. -/
theorem event_loop_eq_ok {s₀ : State} (ho : Origins s₀.1)
    (hok : eventLoop p e env s₀ = .ok (a, c)) :
    ∃ s₁ s₂, Looped p e s₀ s₁ s₂ ∧ c = s₂.2 ∧ a = { s₂.1 with
      fireAndForget := s₂.1.fireAndForget - env.sendsCompleted
      canExtract := isDone { s₂.1 with
        fireAndForget := s₂.1.fireAndForget - env.sendsCompleted } } := by
  obtain ⟨s₁, hsend, hok⟩ := bind_eq_ok.mp hok
  obtain ⟨s₂, hmetadata, hok⟩ := bind_eq_ok.mp hok
  obtain ⟨s₃, hdata, hok⟩ := bind_eq_ok.mp hok
  obtain ⟨⟨a₄, c₄⟩, hcomplete, hok⟩ := bind_eq_ok.mp hok
  obtain ⟨rfl, rfl⟩ := Prod.mk.inj (pure_eq_ok.mp hok)
  have hframe := send_ready_frame hsend
  have ho₁ : Origins s₁.1 := ho.congr hframe.sourceStates hframe.receivePosted
  refine ⟨s₁, (a₄, c₄), ⟨⟨_, hframe⟩, fun r prod h calls hs => hs.send_ready hsend, ?_⟩, rfl, rfl⟩
  exact (((Receipt.refl ho₁).receive_metadata hmetadata).receive_data hdata).complete_data hcomplete

/-- The rank itself receives nothing on the links it sends on, and what it received is left
alone. -/
theorem Sending.congr (hs : Sending q r e prod box c h)
    (hm : (c'.metadata (q, r)).sent = (c.metadata (q, r)).sent)
    (hp : (c'.payload (q, r)).sent = (c.payload (q, r)).sent) : Sending q r e prod box c' h :=
  { hs with feed := hs.feed.congr hm hp }

theorem Receiving.congr {st : SourceState} {posted : List (Chunk × RecvFuture)}
    (hr : Receiving q r e st posted c got rest front complete pending waiting)
    (hm : (c'.metadata (q, r)).taken = (c.metadata (q, r)).taken)
    (hp : (c'.payload (q, r)).taken = (c.payload (q, r)).taken) :
    Receiving q r e st posted c' got rest front complete pending waiting :=
  { hr with
    metadata_taken := hm.trans hr.metadata_taken
    payload_taken := hp.trans hr.payload_taken }

/-- More messages are sent. -/
theorem Receiving.more {st : SourceState} {posted : List (Chunk × RecvFuture)}
    {new : List (Nat × Msg)}
    (hr : Receiving q r e st posted c got rest front complete pending waiting)
    (hnew : ∀ x ∈ new, e ≤ x.1) :
    Receiving q r e st posted c got (rest ++ new) front complete pending waiting :=
  { hr with
    rest_le := fun x hx => (List.mem_append.mp hx).elim (hr.rest_le x) (hnew x) }

/-- No message is left to be sent for a destination that has received them all. -/
theorem Sending.nothing_new {box' : List Chunk} {new : List (Nat × Msg)}
    (hs : Sending q r e prod box' c (h ++ new)) (hnew : ∀ x ∈ new, x.1 = e)
    (hall : (ofNumber e h).Perm prod) : new = [] := by
  obtain ⟨msgs, -, hperm⟩ := hs.unsent
  have hlength := hperm.length_eq
  rw [AllGather.of_number_append, List.length_append, List.length_append,
    ← hall.length_eq] at hlength
  have hnumber : (ofNumber e new).length = new.length := by
    rw [ofNumber, List.length_map, List.filter_eq_self.mpr fun x hx => by simpa using hnew x hx]
  exact List.length_eq_zero_iff.mp (by omega)

section EventLoop

variable {s₁ s₂ : State}

/-- The links that the rank sends on. -/
theorem Link.event_loop_out
    (hl : Link peers s p r h got rest front complete pending waiting)
    (hlooped : Looped p (s.number p) (s.members p, s.comm) s₁ s₂) (hne : r ≠ p) :
    ∃ new, Sending p r (s.number p) (produced s (s.number p) p r)
        ((s.calls p).chunks ++ s₂.1.outgoing) s₂.2 (h ++ new) ∧
      (∀ x ∈ new, x.1 = s.number p) ∧ (s.number p < s.number r → new = []) ∧
      Receiving p r (s.number r) ((s.members r).sourceStates p) (postedFor p (s.members r)) s₂.2 got
        (rest ++ new) front complete pending waiting := by
  obtain ⟨new, hsending, hnew⟩ := hlooped.sending r _ h _ hl.sending
  have hframe := hlooped.receipt.frame
  obtain ⟨box, hsends⟩ := hlooped.sends
  have hnone : s.number p < s.number r → new = [] := fun hlt =>
    hsending.nothing_new hnew (hl.left _ hlt).1
  refine ⟨new, ?_, hnew, hnone, ?_⟩
  · have houtgoing : s₂.1.outgoing = s₁.1.outgoing := congrArg Members.outgoing hframe.members
    rw [houtgoing]
    exact hsending.congr (hframe.metadata_sent _) (hframe.payload_sent _)
  · refine (hl.receiving.more fun x hx => ?_).congr ?_ ?_
    · by_contra hlt
      rw [hnew x hx] at hlt
      rw [hnone (Nat.lt_of_not_le hlt)] at hx
      cases hx
    · rw [hframe.metadata (p, r) hne]
      exact hsends.metadata_taken (p, r)
    · rw [hframe.payload (p, r) hne]
      exact hsends.payload_taken (p, r)

/-- The links that the rank receives on. -/
theorem Link.event_loop_in (hvalid : ValidInsertions s) (hq : Local peers s q)
    (hsrc : q ∈ (s.members p).srcs → p ∈ peers.dsts (s.number p) q)
    (hl : Link peers s q p h got rest front complete pending waiting)
    (hlooped : Looped p (s.number p) (s.members p, s.comm) s₁ s₂) (hne : q ≠ p) :
    Sending q p (s.number q) (produced s (s.number q) q p) (unsent s q) s₂.2 h ∧
      ∃ got rest front complete pending waiting, got ++ rest = h ∧
        Receiving q p (s.number p) (s₂.1.sourceStates q) (postedFor q s₂.1) s₂.2 got rest front
          complete pending waiting := by
  have hframe := hlooped.receipt.frame
  obtain ⟨box, hsends⟩ := hlooped.sends
  have hmetadata : s₁.2.metadata (q, p) = s.comm.metadata (q, p) := hsends.metadata (q, p) hne
  have hpayload : s₁.2.payload (q, p) = s.comm.payload (q, p) := hsends.payload (q, p) hne
  have hsending : Sending q p (s.number q) (produced s (s.number q) q p) (unsent s q) s₁.2 h :=
    hl.sending.congr (by rw [hmetadata]) (by rw [hpayload])
  have hworking : Working q p (s.number p) h s₁ := by
    refine ⟨hsending.feed, got, rest, front, complete, pending, waiting, hl.split, ?_⟩
    have hstates : s₁.1.sourceStates = (s.members p).sourceStates := hsends.sourceStates
    have hposted : s₁.1.receivePosted = (s.members p).receivePosted := hsends.receivePosted
    rw [hstates, postedFor, hposted]
    exact hl.receiving.congr (by rw [hmetadata]) (by rw [hpayload])
  have hsrcs : s₁.1.srcs = (s.members p).srcs := hsends.srcs
  obtain ⟨-, hreceiving⟩ := hlooped.receipt.working q h
    (fun hmem => hl.supplied hvalid hq (hsrc (hsrcs ▸ hmem))) hworking
  exact ⟨hsending.congr (hframe.metadata_sent _) (hframe.payload_sent _), hreceiving⟩

end EventLoop

/-- What a call of `event_loop` leaves alone of all ranks. -/
structure Progressed (s s' : Ranks) : Prop where
  number : s'.number = s.number
  calls : s'.calls = s.calls
  insertions : s'.insertions = s.insertions
  finished : s'.finished = s.finished
  srcs : ∀ r, (s'.members r).srcs = (s.members r).srcs
  dsts : ∀ r, (s'.members r).dsts = (s.members r).dsts
  nextOrdinal : ∀ r, (s'.members r).nextOrdinal = (s.members r).nextOrdinal
  locallyFinished : ∀ r, (s'.members r).locallyFinished = (s.members r).locallyFinished

theorem Progressed.produced_eq (hpg : Progressed s s') : produced s' = produced s := by
  funext e q r
  rw [produced, produced, hpg.insertions, hpg.finished]

/-- A rank by itself. -/
theorem Local.progressed (hpg : Progressed s s') (hl : Local peers s r)
    (hdone : (s'.members r).canExtract = true → isDone (s'.members r) = true)
    (horigins : Origins (s'.members r)) : Local peers s' r := by
  constructor
  · rw [hpg.srcs, hpg.number]
    exact hl.srcs
  · rw [hpg.dsts, hpg.number]
    exact hl.dsts
  · rw [hpg.nextOrdinal, hpg.number, hpg.insertions]
    exact hl.ordinal
  · rw [hpg.insertions, hpg.finished]
    exact hl.foreign
  · rw [hpg.number, hpg.insertions, hpg.finished]
    exact hl.later
  · rw [hpg.number, hpg.finished]
    exact hl.past
  · rw [hpg.dsts, hpg.locallyFinished, hpg.number, hpg.finished, hpg.calls]
    exact hl.calls
  · exact hdone
  · exact horigins

/-- A link on which `new` is sent, and any number of messages is received. -/
theorem Link.progressed (hl : Link peers s q r h got rest front complete pending waiting)
    (hpg : Progressed s s') (new : List (Nat × Msg)) (hnew : ∀ x ∈ new, x.1 = s.number q)
    (hnone : s.number q < s.number r → new = [])
    (hsending : Sending q r (s.number q) (produced s (s.number q) q r) (unsent s' q) s'.comm
      (h ++ new))
    (hreceiving : ∃ got rest front complete pending waiting, got ++ rest = h ++ new ∧
      Receiving q r (s.number r) ((s'.members r).sourceStates q) (postedFor q (s'.members r))
        s'.comm got rest front complete pending waiting) : Linked peers s' q r := by
  obtain ⟨got', rest', front', complete', pending', waiting', hsplit, hreceiving⟩ := hreceiving
  have hnumbers : ∀ e, e < s.number q ∨ e < s.number r → ofNumber e (h ++ new) = ofNumber e h := by
    intro e he
    rw [AllGather.of_number_append]
    by_cases hself : e = s.number q
    · rw [hnone (he.elim (fun hlt => absurd hself (Nat.ne_of_lt hlt)) fun hlt => hself ▸ hlt)]
      exact List.append_nil _
    · rw [AllGather.of_number_eq_nil fun x hx heq => hself (heq.symm.trans (hnew x hx)),
        List.append_nil]
  refine ⟨h ++ new, got', rest', front', complete', pending', waiting', hsplit, ?_, ?_,
    fun e he => ?_, fun e he => ?_⟩
  · rw [hpg.number, hpg.produced_eq]
    exact hsending
  · rw [hpg.number]
    exact hreceiving
  · rw [hpg.number] at he
    rw [hnumbers e (.inl he), hpg.produced_eq]
    exact hl.earlier e he
  · rw [hpg.number] at he
    rw [hnumbers e (.inr he), hpg.produced_eq, hpg.finished]
    exact hl.left e he

/-- `event_loop` is called. -/
theorem Inv.event_loop (hvalid : ValidInsertions s) (hi : Inv peers s) (hp : p < n)
    (hok : step peers (.eventLoop p env) s = .ok s') : Inv peers s' := by
  have hl := hi.locals p hp
  simp only [step] at hok
  split at hok
  · cases hok
  obtain ⟨⟨a, c⟩, hloop, hs⟩ := bind_eq_ok.mp hok
  have hs' : s' = { s with comm := c }.put p a (s.calls p) := (pure_eq_ok.mp hs).symm
  obtain ⟨s₁, s₂, hlooped, hc, ha⟩ := event_loop_eq_ok hl.origins hloop
  have hframe := hlooped.receipt.frame
  obtain ⟨box, hsends⟩ := hlooped.sends
  have hmembers : s'.members p = a := by
    rw [hs']
    exact Function.update_self _ _ _
  have hothers : ∀ r ≠ p, s'.members r = s.members r := fun r hr => by
    rw [hs']
    exact Function.update_of_ne hr _ _
  have hcalls : s'.calls = s.calls := by
    rw [hs']
    exact Function.update_eq_self _ _
  have hcomm : s'.comm = s₂.2 := by
    rw [hs', hc]
    rfl
  have hkept : a.toMembers = { (s.members p).toMembers with outgoing := box } := by
    rw [ha]
    exact hframe.members.trans hsends.members
  have hsrcs : a.srcs = (s.members p).srcs := by
    rw [ha]
    exact hframe.srcs.trans hsends.srcs
  have hpg : Progressed s s' := by
    have hfield : ∀ {α : Type} (f : Endpoint → α), f a = f (s.members p) →
        ∀ r, f (s'.members r) = f (s.members r) := by
      intro α f hf r
      by_cases hr : r = p
      · rw [hr, hmembers, hf]
      · rw [hothers r hr]
    exact ⟨by rw [hs']; rfl, hcalls, by rw [hs']; rfl, by rw [hs']; rfl,
      hfield (fun a => a.srcs) hsrcs,
      hfield (fun a => a.dsts) (by rw [hkept]),
      hfield (fun a => a.nextOrdinal) (by rw [hkept]),
      hfield (fun a => a.locallyFinished) (by rw [hkept])⟩
  refine ⟨fun r hr => ?_, fun q hq r hr hne => ?_⟩
  · by_cases heq : r = p
    · subst heq
      refine hl.progressed hpg ?_ ?_
      · rw [hmembers, ha]
        exact id
      · rw [hmembers, ha]
        exact hlooped.receipt.origins.congr rfl rfl
    · refine (hi.locals r hr).progressed hpg ?_ ?_
      · rw [hothers r heq]
        exact (hi.locals r hr).done
      · rw [hothers r heq]
        exact (hi.locals r hr).origins
  · obtain ⟨h, got, rest, front, complete, pending, waiting, hlink⟩ := hi.links q hq r hr hne
    by_cases hqp : q = p
    · subst hqp
      obtain ⟨new, hsending, hnew, hnone, hreceiving⟩ := hlink.event_loop_out hlooped hne.symm
      refine hlink.progressed hpg new hnew hnone ?_ ⟨got, rest ++ new, front, complete, pending,
        waiting, ?_, ?_⟩
      · rw [unsent, hcalls, hmembers, hcomm, ha]
        exact hsending
      · rw [← List.append_assoc, hlink.split]
      · rw [hothers r hne.symm, hcomm]
        exact hreceiving
    · have hunsent : unsent s' q = unsent s q := by
        rw [unsent, unsent, hcalls, hothers q hqp]
      by_cases hrp : r = p
      · subst hrp
        have hsrc : q ∈ (s.members r).srcs → r ∈ peers.dsts (s.number r) q := fun hmem =>
          (peers.consistent _ q hq r hr).mpr (hl.srcs ▸ hmem)
        obtain ⟨hsending, hreceiving⟩ :=
          hlink.event_loop_in hvalid (hi.locals q hq) hsrc hlooped hqp
        refine hlink.progressed hpg [] (by simp) (fun _ => rfl) ?_ ?_
        · rw [hunsent, hcomm, List.append_nil]
          exact hsending
        · rw [hmembers, hcomm, ha, List.append_nil]
          exact hreceiving
      · have hmetadata : s₂.2.metadata (q, r) = s.comm.metadata (q, r) :=
          (hframe.metadata (q, r) hrp).trans (hsends.metadata (q, r) hqp)
        have hpayload : s₂.2.payload (q, r) = s.comm.payload (q, r) :=
          (hframe.payload (q, r) hrp).trans (hsends.payload (q, r) hqp)
        refine hlink.progressed hpg [] (by simp) (fun _ => rfl) ?_
          ⟨got, rest, front, complete, pending, waiting, ?_, ?_⟩
        · rw [hunsent, hcomm, List.append_nil]
          exact hlink.sending.congr (by rw [hmetadata]) (by rw [hpayload])
        · rw [hlink.split, List.append_nil]
        · rw [hothers r hrp, hcomm]
          exact hlink.receiving.congr (by rw [hmetadata]) (by rw [hpayload])

/-! ## A rank that is done -/

/-- When the messages that were received tell their number, they are all that was put in, and the
source has put in its finish message. -/
theorem Link.all_received (hvalid : ValidInsertions s)
    (hl : Link peers s q r h got rest front complete pending waiting)
    (hclosed : Closed (ofNumber e got)) :
    (ofNumber e got).Perm (produced s e q r) ∧ ofNumber e rest = [] ∧ r ∈ s.finished e q := by
  obtain ⟨hpos, -, hsum⟩ := hclosed
  have hsub : List.Subperm (ofNumber e got ++ ofNumber e rest) (produced s e q r) := by
    rw [← AllGather.of_number_append, hl.split]
    exact hl.subperm e
  have hgot : List.Subperm (ofNumber e got) (produced s e q r) :=
    (List.sublist_append_left _ _).subperm.trans hsub
  by_cases hfinished : r ∈ s.finished e q
  · have hfull := messages_for_closed q (hvalid e q r)
    have hproduced : produced s e q r = messagesFor q (s.insertions e q r) true := by
      rw [produced, decide_eq_true hfinished]
    obtain ⟨m, hm, hne⟩ : ∃ m ∈ ofNumber e got, m.announced ≠ 0 := by
      by_contra hnone
      have hzero : ((ofNumber e got).map Msg.announced).sum = 0 := by
        rw [List.sum_eq_zero]
        intro k hk
        obtain ⟨m, hm, rfl⟩ := List.mem_map.mp hk
        by_contra hk
        exact hnone ⟨m, hm, hk⟩
      omega
    -- that message is the finish message, which tells the number of all messages
    have hall : m.announced = (produced s e q r).length := by
      have hmem := hgot.subset hm
      rw [hproduced, messagesFor, if_pos rfl] at hmem
      rw [hproduced, ← hfull.2.2, messagesFor, if_pos rfl, List.map_append, List.sum_append,
        announced_data, Nat.zero_add, List.map_singleton, List.sum_singleton]
      rcases List.mem_append.mp hmem with hmem | hmem
      · obtain ⟨item, -, rfl⟩ := List.mem_map.mp hmem
        exact absurd rfl hne
      · rw [List.mem_singleton.mp hmem]
    have hle : m.announced ≤ ((ofNumber e got).map Msg.announced).sum :=
      List.single_le_sum (fun _ _ => Nat.zero_le _) _ (List.mem_map_of_mem hm)
    have hlength := hsub.length_le
    rw [List.length_append] at hlength
    refine ⟨hgot.perm_of_length_le (by omega), List.length_eq_zero_iff.mp (by omega), hfinished⟩
  · exfalso
    obtain ⟨l, hl, hsublist⟩ := hgot
    have hzero : ((ofNumber e got).map Msg.announced).sum = 0 := by
      rw [← (hl.map Msg.announced).sum_eq, List.sum_eq_zero]
      intro k hk
      obtain ⟨m, hm, rfl⟩ := List.mem_map.mp hk
      have hmem := hsublist.subset hm
      rw [produced, decide_eq_false hfinished, messagesFor, if_neg (by decide),
        List.append_nil] at hmem
      obtain ⟨item, -, rfl⟩ := List.mem_map.mp hmem
      rfl
    omega

/-- What a rank that is done has received from another one. -/
structure Complete (peers : Peers n) (s : Ranks) (q r : Nat) (h got rest : List (Nat × Msg))
    (front : List (Nat × Item)) (complete pending waiting : List Item) : Prop where
  link : Link peers s q r h got rest front complete pending waiting
  received : (ofNumber (s.number r) got).Perm (produced s (s.number r) q r)
  nothing_left : ofNumber (s.number r) rest = []
  finished : r ∈ peers.dsts (s.number r) q → r ∈ s.finished (s.number r) q
  pending : pending = []
  waiting : waiting = []

/-- A rank that is done has received all that was put in for it. -/
theorem Link.done (hvalid : ValidInsertions s) (hr : Local peers s r)
    (hq : Local peers s q) (hsrc : r ∈ peers.dsts (s.number r) q ↔ q ∈ peers.srcs (s.number r) r)
    (hl : Link peers s q r h got rest front complete pending waiting)
    (hdone : isDone (s.members r) = true) :
    Complete peers s q r h got rest front complete pending waiting := by
  have hsub : List.Subperm (ofNumber (s.number r) got ++ ofNumber (s.number r) rest)
      (produced s (s.number r) q r) := by
    rw [← AllGather.of_number_append, hl.split]
    exact hl.subperm _
  have hreceiving := hl.receiving
  simp only [isDone, containersEmpty, Bool.and_eq_true, List.all_eq_true, List.isEmpty_iff,
    decide_eq_true_eq] at hdone
  obtain ⟨⟨-, hready⟩, ⟨⟨-, hposted⟩, -⟩, hincoming⟩ := hdone
  by_cases hdst : r ∈ peers.dsts (s.number r) q
  · have hmem : q ∈ (s.members r).srcs := by
      rw [hr.srcs]
      exact hsrc.mp hdst
    have hlt : (ofNumber (s.number r) got).length < 2 ^ 64 := by
      have hlength := hsub.length_le
      have hins := hvalid (s.number r) q r
      have hbound : (produced s (s.number r) q r).length ≤
          (s.insertions (s.number r) q r).length + 1 := by
        rw [produced, messagesFor, List.length_append, List.length_map, length_items_for]
        split
        · exact Nat.le_refl _
        · exact Nat.le_succ _
      rw [List.length_append] at hlength
      omega
    obtain ⟨hperm, hnone, hfinished⟩ :=
      hl.all_received hvalid ((hreceiving.ready_iff hlt).mp (hready q hmem))
    refine ⟨hl, hperm, hnone, fun _ => hfinished, ?_, ?_⟩
    · have hpending := hreceiving.posted
      rw [postedFor, hposted] at hpending
      exact List.forall₂_nil_left_iff.mp hpending
    · have hwaiting := hreceiving.incoming
      rw [hincoming q hmem] at hwaiting
      exact List.forall₂_nil_left_iff.mp hwaiting
  · -- nothing is put in for a rank that is no destination
    have hproduced : produced s (s.number r) q r = [] := by
      obtain ⟨hnone, hfinished⟩ := hq.foreign (s.number r) r hdst
      rw [produced, hnone, decide_eq_false hfinished]
      rfl
    rw [hproduced] at hsub
    obtain ⟨hgot, hrest⟩ := List.append_eq_nil_iff.mp (List.subperm_nil.mp hsub)
    have hitems := hreceiving.items
    rw [hgot] at hitems
    obtain ⟨-, hitems⟩ := List.append_eq_nil_iff.mp hitems.eq_nil
    obtain ⟨hpending, hwaiting⟩ := List.append_eq_nil_iff.mp hitems
    exact ⟨hl, by rw [hgot, hproduced], hrest, fun hmem => absurd hmem hdst, hpending, hwaiting⟩

/-! ## The next SparseAlltoall -/

/-- A rank that is done has sent all that it put in. -/
theorem Link.all_sent (hq : Local peers s q) (hdone : isDone (s.members q) = true)
    (hl : Link peers s q r h got rest front complete pending waiting) :
    unsent s q = [] ∧ (ofNumber (s.number q) h).Perm (produced s (s.number q) q r) := by
  simp only [isDone, containersEmpty, Bool.and_eq_true, List.isEmpty_iff] at hdone
  obtain ⟨⟨hlocal, -⟩, ⟨⟨houtgoing, -⟩, -⟩, -⟩ := hdone
  have hunsent : unsent s q = [] := by
    have hcalls := hq.calls
    rw [hlocal] at hcalls
    rw [unsent, houtgoing, List.append_nil]
    cases hc : s.calls q with
    | inserting chunks =>
        rw [hc] at hcalls
        cases hcalls.1
    | finishing left =>
        rw [hc] at hcalls
        cases hcalls.1
    | returned => rfl
  obtain ⟨msgs, hmsg, hperm⟩ := hl.sending.unsent
  rw [hunsent] at hmsg
  obtain rfl := List.forall₂_nil_left_iff.mp hmsg
  exact ⟨hunsent, hperm⟩

/-- A rank that is done has put in a finish message for each destination. -/
theorem Local.all_finished (hl : Local peers s r) (hdone : isDone (s.members r) = true) :
    ∀ d ∈ peers.dsts (s.number r) r, d ∈ s.finished (s.number r) r := by
  simp only [isDone, Bool.and_eq_true] at hdone
  obtain ⟨⟨hlocal, -⟩, -⟩ := hdone
  have hcalls := hl.calls
  rw [hlocal, hl.dsts] at hcalls
  intro d hd
  cases hc : s.calls r with
  | inserting chunks =>
      rw [hc] at hcalls
      cases hcalls.1
  | finishing left =>
      rw [hc] at hcalls
      cases hcalls.1
  | returned =>
      rw [hc] at hcalls
      exact (hcalls.2 d).mp hd

/-- The next SparseAlltoall starts from nothing. -/
theorem Receiving.next_number {st : SourceState} {posted : List (Chunk × RecvFuture)}
    (hr : Receiving q r e st posted c got rest front complete [] [])
    (hrest : ofNumber e rest = []) :
    Receiving q r (e + 1) .new [] c got rest front [] [] [] := by
  have hgot : ofNumber (e + 1) got = [] :=
    AllGather.of_number_eq_nil fun x hx => Nat.ne_of_lt (Nat.lt_succ_of_le (hr.got_le x hx))
  refine ⟨hr.metadata_taken, hr.payload_taken, fun x hx => Nat.le_succ_of_le (hr.got_le x hx),
    fun x hx => ?_, ?_, ?_, ?_, ?_, .nil, .nil, .nil⟩
  · refine Nat.lt_of_le_of_ne (hr.rest_le x hx) fun heq => ?_
    have hmem : x.2 ∈ ofNumber e rest := by
      rw [ofNumber]
      exact List.mem_map_of_mem (List.mem_filter.mpr ⟨hx, by simpa using heq.symm⟩)
    rw [hrest] at hmem
    cases hmem
  · rw [hgot]
    rfl
  · rw [hgot]
    rfl
  · rw [hgot]
    exact .nil
  · rw [hr.payloads]
    rfl

/-- What the construction of the next SparseAlltoall of the rank `p` changes. -/
structure Started (peers : Peers n) (p : Rank) (s s' : Ranks) : Prop where
  number : s'.number p = s.number p + 1
  members : s'.members p = .make (peers.srcs (s.number p + 1) p) (peers.dsts (s.number p + 1) p)
  calls : s'.calls p = .inserting []
  numbers : ∀ r ≠ p, s'.number r = s.number r
  others : ∀ r ≠ p, s'.members r = s.members r ∧ s'.calls r = s.calls r
  comm : s'.comm = s.comm
  insertions : s'.insertions = s.insertions
  finished : s'.finished = s.finished
  produced : produced s' = produced s

/-- Nothing is put in or finished yet of the next SparseAlltoall. -/
theorem Local.start (hl : Local peers s p) (hdone : isDone (s.members p) = true)
    (hs : Started peers p s s') : Local peers s' p := by
  obtain ⟨hnone, hopen⟩ := hl.later (s.number p + 1) (Nat.lt_succ_self _)
  constructor
  · rw [hs.members, hs.number]
    rfl
  · rw [hs.members, hs.number]
    rfl
  · intro d
    rw [hs.members, hs.number, hs.insertions, hnone]
    rfl
  · rw [hs.insertions, hs.finished]
    exact hl.foreign
  · intro e he
    rw [hs.number] at he
    rw [hs.insertions, hs.finished]
    exact hl.later e (Nat.lt_of_succ_lt he)
  · intro e he
    rw [hs.number] at he
    rw [hs.finished]
    rcases Nat.lt_succ_iff_lt_or_eq.mp he with he | rfl
    · exact hl.past e he
    · exact hl.all_finished hdone
  · rw [hs.members, hs.number, hs.finished, hs.calls]
    exact ⟨rfl, hopen⟩
  · rw [hs.members]
    exact fun hcan => absurd hcan Bool.false_ne_true
  · rw [hs.members]
    exact ⟨fun _ _ hchunk => absurd hchunk List.not_mem_nil,
      fun _ hx => absurd hx List.not_mem_nil⟩

/-- The other ranks are as they were. -/
theorem Local.start_other (hl : Local peers s r) (hr : r ≠ p) (hs : Started peers p s s') :
    Local peers s' r := by
  obtain ⟨hm, hc⟩ := hs.others r hr
  constructor
  · rw [hm, hs.numbers r hr]
    exact hl.srcs
  · rw [hm, hs.numbers r hr]
    exact hl.dsts
  · rw [hm, hs.numbers r hr, hs.insertions]
    exact hl.ordinal
  · rw [hs.insertions, hs.finished]
    exact hl.foreign
  · rw [hs.numbers r hr, hs.insertions, hs.finished]
    exact hl.later
  · rw [hs.numbers r hr, hs.finished]
    exact hl.past
  · rw [hm, hc, hs.numbers r hr, hs.finished]
    exact hl.calls
  · rw [hm]
    exact hl.done
  · rw [hm]
    exact hl.origins

/-- A rank that is done has sent all of the old SparseAlltoall, and begins to send the next. -/
theorem Linked.start_source (hl : Local peers s p) (hdone : isDone (s.members p) = true)
    (hlinked : Linked peers s p r) (hr : r ≠ p) (hs : Started peers p s s') :
    Linked peers s' p r := by
  obtain ⟨h, got, rest, front, complete, pending, waiting, hlink⟩ := hlinked
  obtain ⟨hnone, hopen⟩ := hl.later (s.number p + 1) (Nat.lt_succ_self _)
  obtain ⟨-, hall⟩ := hlink.all_sent hl hdone
  have hnew : ofNumber (s.number p + 1) h = [] := AllGather.of_number_eq_nil fun x hx =>
    Nat.ne_of_lt (Nat.lt_succ_of_le (hlink.sending.stamp_le x hx))
  refine ⟨h, got, rest, front, complete, pending, waiting, hlink.split, ?_, ?_, fun e he => ?_, ?_⟩
  · rw [hs.number, hs.produced, unsent, hs.calls, hs.members, hs.comm]
    refine ⟨hlink.sending.feed, fun x hx => Nat.le_succ_of_le (hlink.sending.stamp_le x hx),
      hlink.sending.sorted, fun _ hchunk => absurd hchunk List.not_mem_nil, [], .nil, ?_⟩
    rw [hnew, produced, hnone, hopen]
    exact .nil
  · rw [hs.numbers r hr, (hs.others r hr).1, hs.comm]
    exact hlink.receiving
  · rw [hs.number] at he
    rw [hs.produced]
    rcases Nat.lt_succ_iff_lt_or_eq.mp he with he | rfl
    · exact hlink.earlier e he
    · exact hall
  · rw [hs.numbers r hr, hs.produced, hs.finished]
    exact hlink.left

/-- The sending side of another rank is as it was. -/
theorem Link.start_sending {front : List (Nat × Item)} {complete pending waiting : List Item}
    (hlink : Link peers s q r h got rest front complete pending waiting) (hq : q ≠ p)
    (hs : Started peers p s s') :
    Sending q r (s'.number q) (produced s' (s'.number q) q r) (unsent s' q) s'.comm h ∧
      ∀ e < s'.number q, (ofNumber e h).Perm (produced s' e q r) := by
  rw [hs.numbers q hq, hs.produced, unsent, (hs.others q hq).1, (hs.others q hq).2, hs.comm]
  exact ⟨hlink.sending, hlink.earlier⟩

/-- A rank that is done has received all of the old SparseAlltoall from a source. -/
theorem Linked.start_target (hvalid : ValidInsertions s) (hl : Local peers s p)
    (hlq : Local peers s q) (hsrc : p ∈ peers.dsts (s.number p) q ↔ q ∈ peers.srcs (s.number p) p)
    (hdone : isDone (s.members p) = true) (hlinked : Linked peers s q p) (hq : q ≠ p)
    (hs : Started peers p s s') : Linked peers s' q p := by
  obtain ⟨h, got, rest, front, complete, pending, waiting, hlink⟩ := hlinked
  obtain ⟨hsending, hearlier⟩ := hlink.start_sending hq hs
  have hcomplete := hlink.done hvalid hl hlq hsrc hdone
  obtain ⟨-, hreceived, hleft, hdst, rfl, rfl⟩ := hcomplete
  refine ⟨h, got, rest, front, [], [], [], hlink.split, hsending, ?_, hearlier, fun e he => ?_⟩
  · rw [hs.number, hs.members, hs.comm]
    exact hlink.receiving.next_number hleft
  · rw [hs.number] at he
    rw [hs.produced, hs.finished]
    rcases Nat.lt_succ_iff_lt_or_eq.mp he with he | rfl
    · exact hlink.left e he
    · refine ⟨?_, hdst⟩
      rw [← hlink.split, AllGather.of_number_append, hleft, List.append_nil]
      exact hreceived

/-- A link between two other ranks is as it was. -/
theorem Linked.start_other (hlinked : Linked peers s q r) (hq : q ≠ p) (hr : r ≠ p)
    (hs : Started peers p s s') : Linked peers s' q r := by
  obtain ⟨h, got, rest, front, complete, pending, waiting, hlink⟩ := hlinked
  obtain ⟨hsending, hearlier⟩ := hlink.start_sending hq hs
  refine ⟨h, got, rest, front, complete, pending, waiting, hlink.split, hsending, ?_, hearlier, ?_⟩
  · rw [hs.numbers r hr, (hs.others r hr).1, hs.comm]
    exact hlink.receiving
  · rw [hs.numbers r hr, hs.produced, hs.finished]
    exact hlink.left

/-- The next SparseAlltoall is constructed. -/
theorem Inv.start (hvalid : ValidInsertions s) (hi : Inv peers s) (hp : p < n)
    (hok : step peers (.start p) s = .ok s') : Inv peers s' := by
  have hl := hi.locals p hp
  simp only [step] at hok
  split at hok
  case isFalse => cases hok
  next hcan =>
  have hdone := hl.done hcan
  have hs' : s' = { s with number := Function.update s.number p (s.number p + 1) }.put p
      (.make (peers.srcs (s.number p + 1) p) (peers.dsts (s.number p + 1) p)) (.inserting []) :=
    (pure_eq_ok.mp hok).symm
  have hs : Started peers p s s' := by
    rw [hs']
    exact ⟨Function.update_self _ _ _, Ranks.members_put .., Ranks.calls_put ..,
      fun r hr => Function.update_of_ne hr _ _,
      fun r hr => ⟨Function.update_of_ne hr _ _, Function.update_of_ne hr _ _⟩, rfl, rfl, rfl, rfl⟩
  refine ⟨fun r hr => ?_, fun q hq r hr hne => ?_⟩
  · by_cases heq : r = p
    · subst heq
      exact hl.start hdone hs
    · exact (hi.locals r hr).start_other heq hs
  · by_cases hqp : q = p
    · subst hqp
      exact (hi.links q hq r hr hne).start_source hl hdone hne.symm hs
    · by_cases hrp : r = p
      · subst hrp
        exact (hi.links q hq r hr hne).start_target hvalid hl (hi.locals q hq)
          (peers.consistent _ q hq r hr) hdone hqp hs
      · exact (hi.links q hq r hr hne).start_other hqp hrp hs

/-! ## All runs -/

/-- What is inserted stays inserted; a step inserts at most once. -/
theorem step_insertions {l : Label} (hok : step peers l s = .ok s') (e q r : Nat) :
    ∃ more, s'.insertions e q r = s.insertions e q r ++ more ∧ more.length ≤ 1 := by
  have hsame : s'.insertions = s.insertions → ∃ more, s'.insertions e q r =
      s.insertions e q r ++ more ∧ more.length ≤ 1 := fun heq =>
    ⟨[], by rw [heq, List.append_nil], Nat.zero_le _⟩
  cases l with
  | insert p dst d converted =>
      simp only [step] at hok
      split at hok
      · obtain ⟨x, -, hs⟩ := bind_eq_ok.mp hok
        cases pure_eq_ok.mp hs
        simp only [Ranks.put, Ranks.logInsertion]
        split
        · exact ⟨_, rfl, Nat.le_refl _⟩
        · exact ⟨[], (List.append_nil _).symm, Nat.zero_le _⟩
      · cases hok
  | enqueue p k =>
      simp only [step] at hok
      split at hok
      · split at hok
        · cases pure_eq_ok.mp hok
          exact hsame rfl
        · cases hok
      · cases hok
  | insertFinished p =>
      simp only [step] at hok
      split at hok
      · split at hok
        · cases hok
        · cases pure_eq_ok.mp hok
          exact hsame rfl
      · cases hok
  | finishNext p =>
      simp only [step] at hok
      split at hok
      · cases pure_eq_ok.mp hok
        exact hsame rfl
      · cases hok
  | finishEnd p =>
      simp only [step] at hok
      split at hok
      · cases pure_eq_ok.mp hok
        exact hsame rfl
      · cases hok
  | eventLoop p env =>
      simp only [step] at hok
      split at hok
      · cases hok
      · obtain ⟨x, -, hs⟩ := bind_eq_ok.mp hok
        cases pure_eq_ok.mp hs
        exact hsame rfl
  | start p =>
      simp only [step] at hok
      split at hok
      · cases pure_eq_ok.mp hok
        exact hsame rfl
      · cases hok

theorem ValidInsertions.of_step {l : Label} (hvalid : ValidInsertions s')
    (hok : step peers l s = .ok s') : ValidInsertions s := by
  intro e q r
  obtain ⟨more, hmore, -⟩ := step_insertions hok e q r
  have hlength := hvalid e q r
  rw [hmore, List.length_append] at hlength
  omega

/-- The invariant holds before any step. -/
theorem Inv.initial (peers : Peers n) : Inv peers (.initial peers) where
  locals := fun r _ => by
    refine ⟨rfl, rfl, fun _ => rfl, fun _ _ _ => ⟨rfl, List.not_mem_nil⟩, fun _ _ =>
      ⟨fun _ => rfl, rfl⟩, fun e he => absurd he (Nat.not_lt_zero e), ⟨rfl, rfl⟩,
      fun hcan => absurd hcan Bool.false_ne_true, ⟨fun _ _ hchunk => absurd hchunk List.not_mem_nil,
        fun _ hx => absurd hx List.not_mem_nil⟩⟩
  links := fun q _ r _ _ => by
    refine ⟨[], [], [], [], [], [], [], rfl, ⟨⟨rfl, rfl, fun _ hx => absurd hx List.not_mem_nil⟩,
      fun _ hx => absurd hx List.not_mem_nil, .nil, fun _ hx => absurd hx List.not_mem_nil, [],
      .nil, .nil⟩, ⟨rfl, rfl, fun _ hx => absurd hx List.not_mem_nil,
      fun _ hx => absurd hx List.not_mem_nil, rfl, rfl, .nil, rfl, .nil, .nil, .nil⟩,
      fun e he => absurd he (Nat.not_lt_zero e), fun e he => absurd he (Nat.not_lt_zero e)⟩

/-- Every step keeps the invariant. -/
theorem Inv.step {l : Label} (hi : Inv peers s) (hl : l.rank < n)
    (hok : SparseAlltoall.step peers l s = .ok s') (hvalid : ValidInsertions s) : Inv peers s' := by
  cases l with
  | insert p dst d converted => exact hi.insert hl hok
  | enqueue p k => exact hi.enqueue hl hok
  | insertFinished p => exact hi.insert_finished hl hok
  | finishNext p => exact hi.finish_next hl hok
  | finishEnd p => exact hi.finish_end hl hok
  | eventLoop p env => exact hi.event_loop hvalid hl hok
  | start p => exact hi.start hvalid hl hok

/-- The invariant holds in every reachable state. -/
theorem reachable_inv (hs : (system peers).Reachable s) (hvalid : ValidInsertions s) :
    Inv peers s := by
  have hinv : ValidInsertions s → Inv peers s := by
    refine hs.invariant (I := fun s => ValidInsertions s → Inv peers s) ?_ ?_
    · rintro s rfl -
      exact .initial peers
    · rintro s l s' ih ⟨hl, hok⟩ hvalid
      have hbefore := hvalid.of_step hok
      exact (ih hbefore).step hl hok hbefore
  exact hinv hvalid

end Rapidsmpf.Coll.SparseAlltoall
