import Rapidsmpf.Coll.SparseReceiving

/-!
# What a SparseAlltoall sends to a destination

`Sending` is the invariant of one destination of a rank: what was put in for it is what was sent on
the link and what is still in `outgoing_` or in the hands of a call of `insert`. The first part of
`event_loop` keeps it.
-/

namespace Rapidsmpf.Coll.SparseAlltoall

open Protocol Fallible ListFacts
open AllGather (ofNumber itemsOf)

variable {q r e dst : Nat} {c c' : Comm} {h : List (Nat × Msg)} {s s' s₀ : State} {item : Item}
  {prod : List Msg} {box box' ready : List Chunk} {chunk : Chunk} {m : Msg} {b : Buffer}

/-- The chunks for a destination. -/
def boxFor (r : Rank) (box : List Chunk) : List Chunk :=
  box.filter fun chunk => chunk.destination = some r

/-- What a rank `q` has for the destination `r`: of what was put in, `prod`, a part was sent, and
the chunks for the rest are in `box`. -/
structure Sending (q r e : Nat) (prod : List Msg) (box : List Chunk) (c : Comm)
    (h : List (Nat × Msg)) : Prop where
  feed : Feed c (q, r) h
  stamp_le : ∀ x ∈ h, x.1 ≤ e
  sorted : h.Pairwise fun x y => x.1 ≤ y.1
  ids : ∀ chunk ∈ box, chunk.id < 2 ^ 64
  unsent : ∃ msgs, List.Forall₂ Chunk.Says (boxFor r box) msgs ∧ (msgs ++ ofNumber e h).Perm prod

/-- What sending leaves alone: the members of the receiving part, what was received, and the links
from other ranks. -/
structure Sends (q : Nat) (s s' : State) : Prop where
  members : s'.1.toMembers = s.1.toMembers
  srcs : s'.1.srcs = s.1.srcs
  sourceStates : s'.1.sourceStates = s.1.sourceStates
  receivePosted : s'.1.receivePosted = s.1.receivePosted
  metadata_taken : ∀ k, (s'.2.metadata k).taken = (s.2.metadata k).taken
  payload_taken : ∀ k, (s'.2.payload k).taken = (s.2.payload k).taken
  metadata : ∀ k, k.1 ≠ q → s'.2.metadata k = s.2.metadata k
  payload : ∀ k, k.1 ≠ q → s'.2.payload k = s.2.payload k

theorem Sends.refl (q : Nat) (s : State) : Sends q s s :=
  ⟨rfl, rfl, rfl, rfl, fun _ => rfl, fun _ => rfl, fun _ _ => rfl, fun _ _ => rfl⟩

theorem Sends.trans {s₁ s₂ s₃ : State} (h : Sends q s₁ s₂) (h' : Sends q s₂ s₃) :
    Sends q s₁ s₃ where
  members := h'.members.trans h.members
  srcs := h'.srcs.trans h.srcs
  sourceStates := h'.sourceStates.trans h.sourceStates
  receivePosted := h'.receivePosted.trans h.receivePosted
  metadata_taken := fun k => (h'.metadata_taken k).trans (h.metadata_taken k)
  payload_taken := fun k => (h'.payload_taken k).trans (h.payload_taken k)
  metadata := fun k hk => (h'.metadata k hk).trans (h.metadata k hk)
  payload := fun k hk => (h'.payload k hk).trans (h.payload k hk)

/-- A message without a payload is sent. -/
theorem Feed.send_metadata (hfeed : Feed c (q, r) h) (hvalid : m.Valid)
    (hnone : payloadsOf [(e, m)] = []) :
    Feed (c.sendMetadata q r e m.serialize) (q, r) (h ++ [(e, m)]) := by
  refine ⟨?_, ?_, fun x hx => ?_⟩
  · simp [Comm.sendMetadata, hfeed.metadata]
  · rw [payloads_of_append, hnone, List.append_nil]
    exact hfeed.payload
  · rcases List.mem_append.mp hx with hx | hx
    · exact hfeed.valid x hx
    · obtain rfl := List.mem_singleton.mp hx
      exact hvalid

/-- A contribution is sent with its payload. -/
theorem Feed.send_data (hfeed : Feed c (q, r) h) (hvalid : (Msg.data item).Valid)
    (hpayload : hasPayload item = true) (hb : b.bytes = item.payload) :
    Feed ((c.sendMetadata q r e (Msg.data item).serialize).sendPayload q r e b) (q, r)
      (h ++ [(e, .data item)]) := by
  refine ⟨?_, ?_, fun x hx => ?_⟩
  · simp [Comm.sendMetadata, Comm.sendPayload, hfeed.metadata]
  · have hsent := hfeed.payload
    have hone : payloadsOf [(e, Msg.data item)] = [(e, item)] := by
      simp [payloadsOf, itemsOf, Msg.item?, hpayload]
    rw [payloads_of_append, hone, List.map_append, ← hsent]
    simp [Comm.sendMetadata, Comm.sendPayload, hb]
  · rcases List.mem_append.mp hx with hx | hx
    · exact hfeed.valid x hx
    · obtain rfl := List.mem_singleton.mp hx
      exact hvalid

theorem Sends.send_metadata {a : Endpoint} {msg : Bytes} {sends : Nat} :
    Sends q (a, c) ({ a with fireAndForget := sends }, c.sendMetadata q dst e msg) where
  members := rfl
  srcs := rfl
  sourceStates := rfl
  receivePosted := rfl
  metadata_taken := AllGather.taken_send_metadata q dst msg
  payload_taken := fun _ => rfl
  metadata := fun _ hk => Function.update_of_ne (fun heq => hk (congrArg Prod.fst heq)) _ _
  payload := fun _ _ => rfl

theorem Sends.send_payload {a : Endpoint} {sends : Nat} :
    Sends q (a, c) ({ a with fireAndForget := sends }, c.sendPayload q dst e b) where
  members := rfl
  srcs := rfl
  sourceStates := rfl
  receivePosted := rfl
  metadata_taken := fun _ => rfl
  payload_taken := AllGather.taken_send_payload q dst b
  metadata := fun _ _ => rfl
  payload := fun _ hk => Function.update_of_ne (fun heq => hk (congrArg Prod.fst heq)) _ _

theorem Sends.send_chunk (hok : sendChunk q e s chunk = .ok s') : Sends q s s' := by
  obtain ⟨a, c⟩ := s
  simp only [sendChunk] at hok
  split at hok
  · cases hok
  · split at hok
    · obtain ⟨⟨buf, chunk'⟩, -, hs⟩ := bind_eq_ok.mp hok
      cases pure_eq_ok.mp hs
      exact Sends.send_metadata.trans Sends.send_payload
    · cases pure_eq_ok.mp hok
      exact Sends.send_metadata

/-- The links to other destinations are left alone. -/
theorem send_chunk_other (hdst : chunk.destination ≠ some r)
    (hok : sendChunk q e s chunk = .ok s') :
    s'.2.metadata (q, r) = s.2.metadata (q, r) ∧ s'.2.payload (q, r) = s.2.payload (q, r) := by
  obtain ⟨a, c⟩ := s
  simp only [sendChunk] at hok
  split at hok
  · cases hok
  · next dst hsome =>
      have hne : (q, r) ≠ (q, dst) := fun heq => hdst (by rw [hsome, (Prod.mk.inj heq).2])
      split at hok
      · obtain ⟨⟨buf, chunk'⟩, -, hs⟩ := bind_eq_ok.mp hok
        cases pure_eq_ok.mp hs
        exact ⟨Function.update_of_ne hne _ _, Function.update_of_ne hne _ _⟩
      · cases pure_eq_ok.mp hok
        exact ⟨Function.update_of_ne hne _ _, rfl⟩

/-- The link to the destination of a chunk. -/
theorem Feed.send_chunk (hfeed : Feed s.2 (q, r) h) (hid : chunk.id < 2 ^ 64)
    (hdst : chunk.destination = some r) (hmsg : chunk.Says m)
    (hok : sendChunk q e s chunk = .ok s') : Feed s'.2 (q, r) (h ++ [(e, m)]) := by
  obtain ⟨a, c⟩ := s
  have hvalid := hmsg.valid hid
  simp only [sendChunk, hdst, hmsg.serialize_eq] at hok
  cases m with
  | data item =>
      obtain ⟨b, hrelease, hb, -⟩ := hmsg.release
      obtain ⟨-, -, -, hsize⟩ := hmsg
      split at hok
      · next hpos =>
          rw [hrelease] at hok
          cases pure_eq_ok.mp hok
          exact hfeed.send_data hvalid ((has_payload_iff item).mpr (hsize ▸ hpos)) hb
      · next hpos =>
          cases pure_eq_ok.mp hok
          have hnone : hasPayload item = false := by
            rw [Bool.eq_false_iff, ne_eq, has_payload_iff, ← hsize]
            exact hpos
          exact hfeed.send_metadata hvalid (by simp [payloadsOf, itemsOf, Msg.item?, hnone])
  | finish id =>
      obtain ⟨-, -, -, hsize⟩ := hmsg
      rw [if_neg (by omega)] at hok
      cases pure_eq_ok.mp hok
      exact hfeed.send_metadata hvalid rfl

/-- A chunk is sent. -/
theorem Sending.send_chunk (hs : Sending q r e prod (chunk :: box) s.2 h)
    (hok : sendChunk q e s chunk = .ok s') :
    ∃ new, Sending q r e prod box s'.2 (h ++ new) ∧ ∀ x ∈ new, x.1 = e := by
  obtain ⟨msgs, hmsg, hperm⟩ := hs.unsent
  have hids : ∀ chunk ∈ box, chunk.id < 2 ^ 64 := fun chunk hchunk =>
    hs.ids chunk (List.mem_cons_of_mem _ hchunk)
  by_cases hdst : chunk.destination = some r
  · rw [boxFor, List.filter_cons_of_pos (by simpa using hdst)] at hmsg
    obtain ⟨m, msgs, hm, hrest, rfl⟩ := List.forall₂_cons_left_iff.mp hmsg
    refine ⟨[(e, m)], ⟨hs.feed.send_chunk (hs.ids chunk List.mem_cons_self) hdst hm hok, ?_, ?_,
      hids, msgs, hrest, ?_⟩, by simp⟩
    · intro x hx
      rcases List.mem_append.mp hx with hx | hx
      · exact hs.stamp_le x hx
      · rw [List.mem_singleton.mp hx]
    · refine List.pairwise_append.mpr ⟨hs.sorted, List.pairwise_singleton _ _, fun x hx y hy => ?_⟩
      rw [List.mem_singleton.mp hy]
      exact hs.stamp_le x hx
    · refine List.Perm.trans ?_ hperm
      rw [AllGather.of_number_append, AllGather.of_number_single, ← List.append_assoc]
      exact List.perm_append_singleton m _
  · rw [boxFor, List.filter_cons_of_neg (by simpa using hdst)] at hmsg
    obtain ⟨hmetadata, hpayload⟩ := send_chunk_other hdst hok
    refine ⟨[], ?_, by simp⟩
    rw [List.append_nil]
    exact ⟨hs.feed.congr (by rw [hmetadata]) (by rw [hpayload]), hs.stamp_le, hs.sorted, hids, msgs,
      hmsg, hperm⟩

/-- The order of the chunks does not matter. -/
theorem Sending.perm (hs : Sending q r e prod box c h) (hperm : box'.Perm box) :
    Sending q r e prod box' c h := by
  obtain ⟨msgs, hmsg, hprod⟩ := hs.unsent
  obtain ⟨msgs', hmsg', hmsgs⟩ := List.perm_comp_forall₂ (hperm.filter _) hmsg
  exact ⟨hs.feed, hs.stamp_le, hs.sorted, fun chunk hchunk => hs.ids chunk (hperm.subset hchunk),
    msgs', hmsg', (hmsgs.append_right _).trans hprod⟩

theorem Sending.send_all (hs : Sending q r e prod (ready ++ box) s.2 h)
    (hok : ready.foldlM (sendChunk q e) s = .ok s') :
    ∃ new, Sending q r e prod box s'.2 (h ++ new) ∧ ∀ x ∈ new, x.1 = e := by
  induction ready generalizing s h with
  | nil =>
      cases pure_eq_ok.mp hok
      exact ⟨[], by simpa using hs, by simp⟩
  | cons chunk ready ih =>
      rw [List.foldlM_cons] at hok
      obtain ⟨s₁, hfirst, hrest⟩ := bind_eq_ok.mp hok
      obtain ⟨new, hs₁, hnew⟩ := hs.send_chunk hfirst
      obtain ⟨new', hs', hnew'⟩ := ih hs₁ hrest
      refine ⟨new ++ new', by rwa [← List.append_assoc], fun x hx => ?_⟩
      rcases List.mem_append.mp hx with hx | hx
      · exact hnew x hx
      · exact hnew' x hx

/-- `send_ready_messages` leaves all but `outgoing_` and the links of the rank alone. -/
theorem send_ready_frame {written : Nat → Bool} (hok : sendReadyMessages q e written s = .ok s') :
    Sends q ({ s.1 with outgoing := (extractReady written s.1.outgoing).2 }, s.2) s' :=
  foldlM_invariant (fun _ _ _ _ hs₁ hstep => hs₁.trans (Sends.send_chunk hstep)) hok
    (Sends.refl _ _)

/-- `send_ready_messages`; `calls` are the chunks that calls of `insert` have not put in yet. -/
theorem Sending.send_ready {written : Nat → Bool} {calls : List Chunk}
    (hs : Sending q r e prod (calls ++ s.1.outgoing) s.2 h)
    (hok : sendReadyMessages q e written s = .ok s') :
    ∃ new, Sending q r e prod (calls ++ s'.1.outgoing) s'.2 (h ++ new) ∧ ∀ x ∈ new, x.1 = e := by
  have houtgoing : s'.1.outgoing = (extractReady written s.1.outgoing).2 :=
    congrArg Members.outgoing (send_ready_frame hok).members
  have hperm : ((extractReady written s.1.outgoing).1 ++
      (calls ++ (extractReady written s.1.outgoing).2)).Perm (calls ++ s.1.outgoing) := by
    rw [← List.append_assoc]
    refine (List.perm_append_comm.append_right _).trans ?_
    rw [List.append_assoc]
    exact (extract_ready_perm written s.1.outgoing).append_left calls
  rw [houtgoing]
  exact Sending.send_all
    (s := ({ s.1 with outgoing := (extractReady written s.1.outgoing).2 }, s.2)) (hs.perm hperm) hok

end Rapidsmpf.Coll.SparseAlltoall
