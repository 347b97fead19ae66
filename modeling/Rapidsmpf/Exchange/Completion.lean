import Mathlib
import Rapidsmpf.Exchange.Progress

/-!
# Completed transfers that are reported once

`complete_data_transfers` asks `test_some` which payload receives are complete and hands messages
over in the order of each peer, keeping nothing of the answer. The keyed `test_some` of the MPI
communicator reports a completed request once: the request of a receive that was reported while
its message had to wait for an earlier one is stale from then on. `handed_over_iff_in_order` says
exactly when no message is forgotten this way.
-/

namespace Rapidsmpf.Exchange

open Protocol Fallible

/-- The ids of the posted payload receives. -/
def TagExchange.keys (st : TagExchange) : List Nat :=
  st.inTransitFutures.map Prod.fst

/-- What identifies a message to the receiver's application: its peer and its metadata. -/
def Message.label (m : Message) : Rank × Bytes := (m.peerRank, m.metadata)

/-- The in-transit messages and the posted receives of an exchange among `n` ranks belong
together, and no two messages share an id. -/
structure Tracked (n : Nat) (st : TagExchange) : Prop where
  posted : ∀ q < n, ∀ m ∈ st.inTransitMessages q, m.messageId ∈ st.keys
  owned : ∀ id ∈ st.keys, ∃ q < n, ∃ m ∈ st.inTransitMessages q, m.messageId = id
  nodup : ∀ q < n, ((st.inTransitMessages q).map TagMessage.messageId).Nodup
  apart : ∀ p < n, ∀ q < n, p ≠ q → ∀ m ∈ st.inTransitMessages p,
    ∀ m' ∈ st.inTransitMessages q, m.messageId ≠ m'.messageId

/-- A new exchange is tracked. -/
theorem Tracked.initial (n : Nat) : Tracked n .initial := by
  constructor <;> simp [TagExchange.initial, TagExchange.keys]

/-! ## The part of `progress` before `test_some` -/

/-- The in-transit messages, the posted receives and the received messages are the same. -/
structure SameTransit (st st' : TagExchange) : Prop where
  transit : st'.inTransitMessages = st.inTransitMessages
  futures : st'.inTransitFutures = st.inTransitFutures
  received : st'.receivedMessages = st.receivedMessages

theorem SameTransit.refl (st : TagExchange) : SameTransit st st := ⟨rfl, rfl, rfl⟩

theorem SameTransit.trans {st₁ st₂ st₃ : TagExchange} (h : SameTransit st₁ st₂)
    (h' : SameTransit st₂ st₃) : SameTransit st₁ st₃ :=
  ⟨h'.transit.trans h.transit, h'.futures.trans h.futures, h'.received.trans h.received⟩

theorem SameButAllocation.sameTransit {st st' : TagExchange} (h : SameButAllocation st st') :
    SameTransit st st' := by
  obtain ⟨_, _, _, rfl⟩ := h
  exact ⟨rfl, rfl, rfl⟩

variable {n : Nat} {env : Env n} {i : Instance}

theorem receive_from_same {q : Rank} {arrived : Nat} {s s' : State}
    (hok : receiveFrom i env q arrived s = .ok s') : SameTransit s.1 s'.1 := by
  induction arrived generalizing s with
  | zero =>
      cases hok
      exact .refl _
  | succ arrived ih =>
      obtain ⟨st, comm⟩ := s
      simp only [receiveFrom] at hok
      split at hok
      · cases hok
        exact .refl _
      · simp only [bind_eq_ok] at hok
        obtain ⟨t, _, hok⟩ := hok
        split at hok
        · cases hok
          exact ⟨rfl, rfl, rfl⟩
        · obtain ⟨⟨m, st'⟩, hawait, hok⟩ := bind_eq_ok.mp hok
          have hst : SameTransit (st.countReceived q) st' := by
            split at hawait
            · exact (await_buffer_spec hawait).2.sameTransit
            · cases hawait
              exact .refl _
          have hrest := ih hok
          exact ⟨hrest.transit.trans hst.transit, hrest.futures.trans hst.futures,
            hrest.received.trans hst.received⟩

theorem receive_metadata_same {s s' : State} (hok : receiveMetadata i env s = .ok s') :
    SameTransit s.1 s'.1 := by
  refine foldlM_invariant (I := fun t : State => SameTransit s.1 t.1) ?_ hok (.refl _)
  intro q _ t t' ht hstep
  split at hstep
  · cases hstep
    exact ht
  · exact ht.trans (receive_from_same hstep)

theorem force_allocation_same {st st' : TagExchange}
    (hok : forceAllocationProgressIfStalled i env st = .ok st') : SameTransit st st' := by
  unfold forceAllocationProgressIfStalled at hok
  split at hok
  · cases hok
    exact .refl _
  · simp only [bind, Except.bind] at hok
    split at hok
    · cases hok
    · split at hok
      · cases hok
      · rename_i res htry
        cases res with
        | some pair =>
            cases hok
            have hs := (try_attach_spec htry).2.2.sameTransit
            exact ⟨hs.transit, hs.futures, hs.received⟩
        | none =>
            simp only at hok
            split at hok
            · cases hok
            · rename_i res' htry'
              cases res' with
              | none =>
                  cases hok
                  exact .refl _
              | some pair =>
                  cases hok
                  have hs := (try_attach_spec htry').2.2.sameTransit
                  exact ⟨hs.transit, hs.futures, hs.received⟩

/-- Receives were posted: the in-transit messages of each source and the posted receives grew at
their ends. -/
structure Posts (st st' : TagExchange) : Prop where
  transit : ∀ q, st.inTransitMessages q <+: st'.inTransitMessages q
  keys : st.keys <+: st'.keys
  received : st'.receivedMessages = st.receivedMessages

theorem Posts.refl (st : TagExchange) : Posts st st :=
  ⟨fun _ => List.prefix_rfl, List.prefix_rfl, rfl⟩

theorem Posts.trans {st₁ st₂ st₃ : TagExchange} (h : Posts st₁ st₂) (h' : Posts st₂ st₃) :
    Posts st₁ st₃ :=
  ⟨fun q => (h.transit q).trans (h'.transit q), h.keys.trans h'.keys,
    h'.received.trans h.received⟩

theorem SameTransit.keys {st st' : TagExchange} (h : SameTransit st st') : st'.keys = st.keys := by
  rw [TagExchange.keys, TagExchange.keys, h.futures]

theorem SameTransit.posts {st st' : TagExchange} (h : SameTransit st st') : Posts st st' :=
  ⟨fun _ => h.transit ▸ List.prefix_rfl, h.keys ▸ List.prefix_rfl, h.received⟩

theorem SameTransit.tracked {st st' : TagExchange} (h : SameTransit st st')
    (ht : Tracked n st) : Tracked n st' := by
  constructor
  · rw [h.transit, h.keys]
    exact ht.posted
  · rw [h.transit, h.keys]
    exact ht.owned
  · rw [h.transit]
    exact ht.nodup
  · rw [h.transit]
    exact ht.apart

theorem lookup_isSome_iff_mem {α : Type} {fs : List (Nat × α)} {id : Nat} :
    (fs.lookup id).isSome ↔ id ∈ fs.map Prod.fst := by
  induction fs with
  | nil => simp
  | cons f fs ih =>
      obtain ⟨k, a⟩ := f
      rw [List.lookup_cons]
      by_cases hk : id = k
      · simp [hk]
      · have hbeq : (id == k) = false := by simpa using hk
        simp [hbeq, ih, hk]

/-- Posting a receive appends a message with a fresh id. -/
theorem post_receive_posts {q : Rank} (hq : q < n) {m : TagMessage} {s s' : State}
    (ht : Tracked n s.1) (hok : postReceive i q m s = .ok s') :
    Posts s.1 s'.1 ∧ Tracked n s'.1 := by
  unfold postReceive at hok
  split at hok
  · cases hok
  · simp only [Comm.postRecv] at hok
    split at hok
    · cases hok
    · rename_i hfresh
      cases hok
      have hnew : m.messageId ∉ s.1.keys := fun hmem => hfresh (lookup_isSome_iff_mem.mpr hmem)
      have hne : ∀ p < n, ∀ m' ∈ s.1.inTransitMessages p, m'.messageId ≠ m.messageId :=
        fun p hp m' hm' heq => hnew (heq ▸ ht.posted p hp m' hm')
      refine ⟨⟨fun p => ?_, by simp [TagExchange.keys], rfl⟩, ?_⟩
      · by_cases hpq : p = q
        · simp [hpq]
        · simp [Function.update_of_ne hpq]
      -- membership in the changed lists
      have hmem : ∀ p, ∀ m' ∈ Function.update s.1.inTransitMessages q
            (s.1.inTransitMessages q ++ [{ m with message := { m.message with data := none } }]) p,
          m' ∈ s.1.inTransitMessages p ∨ (p = q ∧ m'.messageId = m.messageId) := by
        intro p m' hm'
        by_cases hpq : p = q
        · subst hpq
          rw [Function.update_self, List.mem_append, List.mem_singleton] at hm'
          rcases hm' with hm' | rfl
          · exact Or.inl hm'
          · exact Or.inr ⟨rfl, rfl⟩
        · rw [Function.update_of_ne hpq] at hm'
          exact Or.inl hm'
      constructor
      case posted =>
        intro p hp m' hm'
        rcases hmem p m' hm' with hold | ⟨_, heq⟩
        · have := ht.posted p hp m' hold
          simp only [TagExchange.keys] at this ⊢
          simp [this]
        · simp [TagExchange.keys, heq]
      case owned =>
        intro id hid
        simp only [TagExchange.keys, List.map_append, List.mem_append, List.map_cons,
          List.map_nil, List.mem_singleton] at hid
        rcases hid with hid | rfl
        · obtain ⟨p, hp, m', hm', heq⟩ := ht.owned id hid
          refine ⟨p, hp, m', ?_, heq⟩
          by_cases hpq : p = q
          · subst hpq
            simp [hm']
          · simpa [Function.update_of_ne hpq] using hm'
        · exact ⟨q, hq, { m with message := { m.message with data := none } }, by simp, rfl⟩
      case nodup =>
        intro p hp
        by_cases hpq : p = q
        · subst hpq
          simp only [Function.update_self, List.map_append, List.map_cons, List.map_nil]
          refine List.nodup_append.mpr ⟨ht.nodup p hp, by simp, ?_⟩
          intro a ha b hb hab
          obtain ⟨m', hm', rfl⟩ := List.mem_map.mp ha
          exact hne p hp m' hm' (by simpa [hab] using hb)
        · simpa [Function.update_of_ne hpq] using ht.nodup p hp
      case apart =>
        intro p hp p' hp' hpp m₁ hm₁ m₂ hm₂
        rcases hmem p m₁ hm₁ with h₁ | ⟨rfl, h₁⟩
        · rcases hmem p' m₂ hm₂ with h₂ | ⟨rfl, h₂⟩
          · exact ht.apart p hp p' hp' hpp m₁ h₁ m₂ h₂
          · rw [h₂]
            exact hne p hp m₁ h₁
        · rcases hmem p' m₂ hm₂ with h₂ | ⟨rfl, _⟩
          · rw [h₁]
            exact Ne.symm (hne p' hp' m₂ h₂)
          · exact absurd rfl hpp

theorem setup_rank_posts {q : Rank} (hq : q < n) {msgs left : List TagMessage}
    {completed : List Message} {s s' : State} (ht : Tracked n s.1)
    (hok : setupRank i env q msgs s = .ok (completed, left, s')) :
    Posts s.1 s'.1 ∧ Tracked n s'.1 := by
  induction msgs generalizing completed with
  | nil =>
      cases hok
      exact ⟨.refl _, ht⟩
  | cons m rest ih =>
      simp only [setupRank] at hok
      split at hok
      · obtain ⟨attached, hatt, hok⟩ := bind_eq_ok.mp hok
        cases attached with
        | none =>
            cases hok
            exact ⟨.refl _, ht⟩
        | some pair =>
            obtain ⟨m', st⟩ := pair
            have hs : SameTransit s.1 st := by
              split at hatt
              · exact (try_attach_spec hatt).2.2.sameTransit
              · cases hatt
                exact .refl _
            simp only at hok
            split at hok
            · cases hok
              exact ⟨hs.posts, hs.tracked ht⟩
            · obtain ⟨t, hpost, hok⟩ := bind_eq_ok.mp hok
              cases hok
              exact (post_receive_posts hq (hs.tracked ht) hpost).imp hs.posts.trans id
      · split at hok
        · obtain ⟨⟨completed', left', t⟩, hrest, hok⟩ := bind_eq_ok.mp hok
          cases hok
          exact ih hrest
        · cases hok
          exact ⟨.refl _, ht⟩

/-- The part of `progress` before `test_some` is called. -/
def beforeTestSome (i : Instance) (env : Env n) (s : State) :
    Except String (List Message × State) :=
  receiveMetadata i env s >>= setupDataReceives i env

theorem before_test_some_posts {completed : List Message} {s s' : State} (ht : Tracked n s.1)
    (hok : beforeTestSome i env s = .ok (completed, s')) : Posts s.1 s'.1 ∧ Tracked n s'.1 := by
  obtain ⟨t, hmeta, hsetup⟩ := bind_eq_ok.mp hok
  simp only [setupDataReceives, bind_eq_ok] at hsetup
  obtain ⟨st, hforce, hloop⟩ := hsetup
  have hs : SameTransit s.1 st :=
    (receive_metadata_same hmeta).trans (force_allocation_same hforce)
  refine foldlM_invariant (I := fun acc : List Message × State =>
    Posts s.1 acc.2.1 ∧ Tracked n acc.2.1) ?_ hloop ⟨hs.posts, hs.tracked ht⟩
  rintro q hq ⟨done, u⟩ ⟨done', u'⟩ ⟨hpu, htu⟩ hstep
  have hq' : q < n := List.mem_range.mp (env.incoming_perm.mem_iff.mp hq)
  simp only [setupSource, bind_eq_ok] at hstep
  obtain ⟨⟨completed', left, st', comm'⟩, hrank, hstep⟩ := hstep
  cases hstep
  obtain ⟨hp, ht'⟩ := setup_rank_posts hq' htu hrank
  exact ⟨hpu.trans ⟨hp.transit, hp.keys, hp.received⟩,
    ⟨ht'.posted, ht'.owned, ht'.nodup, ht'.apart⟩⟩

/-! ## Completing -/

/-- Whether a message is reported complete in a call. -/
def reportedIn (env : Env n) (m : TagMessage) : Bool :=
  env.reported.contains m.messageId

/-- The loop over the in-transit messages of one source hands over the longest reported prefix
and drops its receives. -/
theorem complete_rank_spec {comm : Comm} {msgs left : List TagMessage}
    {futures futures' : List (Nat × Future)} {done : List Message}
    (hok : completeRank i env comm msgs futures = .ok (done, left, futures')) :
    left = msgs.dropWhile (reportedIn env)
      ∧ done.map Message.label = (msgs.takeWhile (reportedIn env)).map (fun m => m.message.label)
      ∧ futures' = futures.filter (fun f => decide
        (f.1 ∉ (msgs.takeWhile (reportedIn env)).map TagMessage.messageId)) := by
  induction msgs generalizing done futures with
  | nil =>
      cases hok
      simp
  | cons m rest ih =>
      simp only [completeRank] at hok
      split at hok
      · rename_i hrep
        have hrep' : reportedIn env m = true := hrep
        split at hok
        · cases hok
        · simp only [bind_eq_ok] at hok
          obtain ⟨buffer, _, ⟨done', left', futures''⟩, hrest, hok⟩ := hok
          cases hok
          obtain ⟨h1, h2, h3⟩ := ih hrest
          refine ⟨?_, ?_, ?_⟩
          · rw [h1, List.dropWhile_cons, if_pos hrep']
          · rw [List.takeWhile_cons, if_pos hrep', List.map_cons, List.map_cons, h2]
            rfl
          · rw [h3, List.filter_filter, List.takeWhile_cons, if_pos hrep']
            refine List.filter_congr fun f _ => ?_
            rw [Bool.eq_iff_iff]
            simp only [List.map_cons, List.mem_cons, not_or, Bool.and_eq_true, decide_eq_true_eq]
            exact and_comm
      · rename_i hrep
        have hrep' : ¬ reportedIn env m = true := hrep
        cases hok
        rw [List.dropWhile_cons, if_neg hrep', List.takeWhile_cons, if_neg hrep']
        simp

/-- The messages of a source that a call hands over. -/
def completedFront (env : Env n) (st : TagExchange) (q : Rank) : List TagMessage :=
  (st.inTransitMessages q).takeWhile (reportedIn env)

/-- What is left in transit of a source after a call. -/
def completedRest (env : Env n) (st : TagExchange) (q : Rank) : List TagMessage :=
  (st.inTransitMessages q).dropWhile (reportedIn env)

/-- The loop over the sources. -/
theorem complete_sources_spec {comm : Comm} {l : List Rank} (hnodup : l.Nodup)
    {done done' : List Message} {st st' : TagExchange}
    (hok : l.foldlM (completeSource i env comm) (done, st) = .ok (done', st')) :
    (∀ q ∈ l, st'.inTransitMessages q = completedRest env st q)
      ∧ (∀ q ∉ l, st'.inTransitMessages q = st.inTransitMessages q)
      ∧ (∀ id, id ∈ st'.keys ↔ id ∈ st.keys
        ∧ ∀ q ∈ l, id ∉ (completedFront env st q).map TagMessage.messageId)
      ∧ (∃ new, done' = done ++ new ∧ ∀ q ∈ l, List.Sublist
        ((completedFront env st q).map fun m => m.message.label) (new.map Message.label))
      ∧ st'.receivedMessages = st.receivedMessages := by
  induction l generalizing done st with
  | nil =>
      cases hok
      simp
  | cons q l ih =>
      obtain ⟨hnot, hnodup⟩ := List.nodup_cons.mp hnodup
      rw [List.foldlM_cons, bind_eq_ok] at hok
      obtain ⟨⟨done₁, st₁⟩, hone, hrest⟩ := hok
      simp only [completeSource, bind_eq_ok] at hone
      obtain ⟨⟨completed, left, futures⟩, hrank, hone⟩ := hone
      obtain ⟨rfl, htr, hft, hrec⟩ : done₁ = done ++ completed
          ∧ st₁.inTransitMessages = Function.update st.inTransitMessages q left
          ∧ st₁.inTransitFutures = futures ∧ st₁.receivedMessages = st.receivedMessages := by
        cases hone
        exact ⟨rfl, rfl, rfl, rfl⟩
      obtain ⟨hleft, hlabel, hfut⟩ := complete_rank_spec hrank
      obtain ⟨h1, h2, h3, ⟨new, hnew, hsub⟩, h5⟩ := ih hnodup hrest
      -- the other sources of the list are as before
      have hsame : ∀ p ∈ l, st₁.inTransitMessages p = st.inTransitMessages p := by
        intro p hp
        have hpq : p ≠ q := by
          rintro rfl
          exact hnot hp
        rw [htr, Function.update_of_ne hpq]
      have hfront : ∀ p ∈ l, completedFront env st₁ p = completedFront env st p := by
        intro p hp
        rw [completedFront, hsame p hp]
        rfl
      refine ⟨?_, ?_, ?_, ?_, h5.trans hrec⟩
      · intro p hp
        rcases List.mem_cons.mp hp with rfl | hp
        · rw [h2 p hnot, htr, Function.update_self, hleft]
          rfl
        · rw [h1 p hp, completedRest, hsame p hp]
          rfl
      · intro p hp
        obtain ⟨hpq, hpl⟩ := not_or.mp (mt List.mem_cons.mpr hp)
        rw [h2 p hpl, htr, Function.update_of_ne hpq]
      · intro id
        have hkeys : id ∈ st₁.keys
            ↔ id ∈ st.keys ∧ id ∉ (completedFront env st q).map TagMessage.messageId := by
          rw [TagExchange.keys, hft, hfut]
          simp only [TagExchange.keys, List.mem_map (f := Prod.fst), List.mem_filter,
            decide_eq_true_eq]
          constructor
          · rintro ⟨f, ⟨hf, hnotin⟩, rfl⟩
            exact ⟨⟨f, hf, rfl⟩, hnotin⟩
          · rintro ⟨⟨f, hf, rfl⟩, hnotin⟩
            exact ⟨f, ⟨hf, hnotin⟩, rfl⟩
        rw [h3 id, hkeys]
        constructor
        · rintro ⟨⟨hk, hq⟩, hl⟩
          refine ⟨hk, fun p hp => ?_⟩
          rcases List.mem_cons.mp hp with rfl | hp
          · exact hq
          · rw [← hfront p hp]
            exact hl p hp
        · rintro ⟨hk, hl⟩
          refine ⟨⟨hk, hl q (by simp)⟩, fun p hp => ?_⟩
          rw [hfront p hp]
          exact hl p (by simp [hp])
      · refine ⟨completed ++ new, by simp [hnew], fun p hp => ?_⟩
        rw [List.map_append]
        rcases List.mem_cons.mp hp with rfl | hp
        · rw [completedFront, ← hlabel]
          exact List.sublist_append_left _ _
        · rw [← hfront p hp]
          exact (hsub p hp).trans (List.sublist_append_right _ _)

/-- `progress` as the part before `test_some` and the completions. -/
theorem progress_eq_before {s s' : State} (hok : progress i env s = .ok s') :
    ∃ only mid done st, beforeTestSome i env s = .ok (only, mid)
      ∧ completeDataTransfers i env mid = .ok (done, st)
      ∧ s'.1.inTransitMessages = st.inTransitMessages ∧ s'.1.keys = st.keys
      ∧ s'.1.receivedMessages = st.receivedMessages ++ only ++ done := by
  simp only [progress, bind_eq_ok] at hok
  obtain ⟨s₁, hmeta, ⟨only, s₂⟩, hsetup, ⟨done, st⟩, hcomplete, hok⟩ := hok
  cases hok
  exact ⟨only, s₂, done, st, bind_eq_ok.mpr ⟨s₁, hmeta, hsetup⟩, hcomplete, rfl, rfl, rfl⟩

/-- What a call does to the in-transit messages: receives are posted, then every source hands over
its longest reported prefix. -/
structure Completes (env : Env n) (only : List Message) (s mid s' : TagExchange) : Prop where
  posts : Posts s mid
  tracked_mid : Tracked n mid
  rest : ∀ q < n, s'.inTransitMessages q = completedRest env mid q
  keys : ∀ id, id ∈ s'.keys ↔ id ∈ mid.keys
    ∧ ∀ q < n, id ∉ (completedFront env mid q).map TagMessage.messageId
  received : ∃ done, s'.receivedMessages = s.receivedMessages ++ only ++ done ∧ ∀ q < n,
    List.Sublist ((completedFront env mid q).map fun m => m.message.label)
      (done.map Message.label)

theorem progress_completes {s s' : State} (ht : Tracked n s.1)
    (hok : progress i env s = .ok s') :
    ∃ only mid, beforeTestSome i env s = .ok (only, mid) ∧ Completes env only s.1 mid.1 s'.1 := by
  obtain ⟨only, mid, done, st, hbefore, hcomplete, htransit, hkeys, hreceived⟩ :=
    progress_eq_before hok
  obtain ⟨hposts, hmid⟩ := before_test_some_posts ht hbefore
  refine ⟨only, mid, hbefore, ?_⟩
  unfold completeDataTransfers at hcomplete
  split at hcomplete
  · -- no receive is posted, so no message is in transit
    rename_i hempty
    cases hcomplete
    have hnokeys : mid.1.keys = [] := by
      rw [TagExchange.keys, List.isEmpty_iff.mp hempty, List.map_nil]
    have hnone : ∀ q < n, mid.1.inTransitMessages q = [] := by
      intro q hq
      refine List.eq_nil_iff_forall_not_mem.mpr fun m hm => ?_
      have hkey := hmid.posted q hq m hm
      rw [hnokeys] at hkey
      cases hkey
    refine ⟨hposts, hmid, fun q hq => ?_, fun id => ?_, [], ?_, fun q hq => ?_⟩
    · rw [htransit, completedRest, hnone q hq]
      rfl
    · simp [hkeys, hnokeys]
    · rw [hreceived, hposts.received]
    · simp [completedFront, hnone q hq]
  · have hmem : ∀ q, q ∈ env.transitOrder ↔ q < n := fun q => by
      rw [env.transit_perm.mem_iff, List.mem_range]
    obtain ⟨h1, _, h3, ⟨new, hnew, hsub⟩, h5⟩ := complete_sources_spec
      (env.transit_perm.nodup_iff.mpr List.nodup_range) hcomplete
    refine ⟨hposts, hmid, fun q hq => ?_, fun id => ?_, done, ?_, fun q hq => ?_⟩
    · rw [htransit]
      exact h1 q ((hmem q).mpr hq)
    · rw [hkeys, h3 id]
      simp only [hmem]
    · rw [hreceived, h5, hposts.received]
    · rw [List.nil_append] at hnew
      exact hnew ▸ hsub q ((hmem q).mpr hq)

/-- The in-transit messages of a source are those handed over and those left. -/
theorem front_append_rest (env : Env n) (st : TagExchange) (q : Rank) :
    completedFront env st q ++ completedRest env st q = st.inTransitMessages q :=
  List.takeWhile_append_dropWhile

theorem mem_of_mem_rest {st : TagExchange} {q : Rank} {m : TagMessage}
    (hm : m ∈ completedRest env st q) : m ∈ st.inTransitMessages q := by
  rw [← front_append_rest env st q]
  exact List.mem_append_right _ hm

theorem Completes.tracked {only : List Message} {s mid s' : TagExchange}
    (h : Completes env only s mid s') : Tracked n s' := by
  have hmid := h.tracked_mid
  constructor
  case posted =>
    intro q hq m hm
    rw [h.rest q hq] at hm
    refine (h.keys _).mpr ⟨hmid.posted q hq m (mem_of_mem_rest hm), fun p hp hmem => ?_⟩
    obtain ⟨m', hm', heq⟩ := List.mem_map.mp hmem
    by_cases hpq : p = q
    · subst hpq
      have hnodup := hmid.nodup p hp
      rw [← front_append_rest env mid p, List.map_append] at hnodup
      exact (List.nodup_append.mp hnodup).2.2 _ hmem _ (List.mem_map_of_mem hm) rfl
    · have hm'' : m' ∈ mid.inTransitMessages p := by
        rw [← front_append_rest env mid p]
        exact List.mem_append_left _ hm'
      exact hmid.apart p hp q hq hpq m' hm'' m (mem_of_mem_rest hm) heq
  case owned =>
    intro id hid
    obtain ⟨hid, hnot⟩ := (h.keys id).mp hid
    obtain ⟨q, hq, m, hm, rfl⟩ := hmid.owned id hid
    refine ⟨q, hq, m, ?_, rfl⟩
    rw [h.rest q hq]
    rw [← front_append_rest env mid q, List.mem_append] at hm
    exact hm.resolve_left fun hfront => hnot q hq (List.mem_map_of_mem hfront)
  case nodup =>
    intro q hq
    rw [h.rest q hq]
    exact (hmid.nodup q hq).sublist ((List.dropWhile_sublist _).map _)
  case apart =>
    intro p hp q hq hpq m hm m' hm'
    rw [h.rest p hp] at hm
    rw [h.rest q hq] at hm'
    exact hmid.apart p hp q hq hpq m (mem_of_mem_rest hm) m' (mem_of_mem_rest hm')

/-! ## Runs over a communicator that reports a completion once -/

/-- `MPI::test_some` in one call: it reports receives that are posted and were not reported
before. -/
def OnceReported (i : Instance) (env : Env i.nranks) (s : State) (stale : List Nat) : Prop :=
  ∀ only mid, beforeTestSome i env s = .ok (only, mid) →
    ∀ id ∈ env.reported, id ∈ mid.1.keys ∧ id ∉ stale

/-- The receives reported so far that are still posted: their requests are stale. -/
def staleAfter (stale : List Nat) (reported : List Nat) (s : State) : List Nat :=
  (stale ++ reported).filter fun id => decide (id ∈ s.1.keys)

/-- A sequence of `progress` calls over `MPI::test_some`, from the stale receives before it to
those after it. -/
inductive MpiRun (i : Instance) : State → List Nat → List (Env i.nranks) → State → List Nat → Prop
  | nil {s : State} {stale : List Nat} : MpiRun i s stale [] s stale
  | cons {s s₁ s' : State} {stale stale' : List Nat} {env : Env i.nranks}
      {envs : List (Env i.nranks)} :
      OnceReported i env s stale → progress i env s = .ok s₁ →
      MpiRun i s₁ (staleAfter stale env.reported s₁) envs s' stale' →
      MpiRun i s stale (env :: envs) s' stale'

/-- A call reports, with a message, every earlier in-transit message of the same peer. -/
def InOrder (i : Instance) (env : Env i.nranks) (s : State) : Prop :=
  ∀ only mid, beforeTestSome i env s = .ok (only, mid) → ∀ q < i.nranks, ∀ pre m post,
    mid.1.inTransitMessages q = pre ++ m :: post → reportedIn env m = true →
      ∀ m' ∈ pre, reportedIn env m' = true

/-- Every call of the sequence reports in order. -/
def InOrderRun (i : Instance) : State → List (Env i.nranks) → Prop
  | _, [] => True
  | s, env :: envs => InOrder i env s ∧ ∀ s₁, progress i env s = .ok s₁ → InOrderRun i s₁ envs

section Runs

variable {s s' t : State} {stale stale' : List Nat} {envs : List (Env i.nranks)}
  {env : Env i.nranks}

/-- A stale receive stays posted: nothing reports it again. -/
theorem stale_stays {s₁ : State} {id : Nat} (ht : Tracked i.nranks s.1)
    (honce : OnceReported i env s stale) (hok : progress i env s = .ok s₁)
    (hkey : id ∈ s.1.keys) (hstale : id ∈ stale) : id ∈ s₁.1.keys := by
  obtain ⟨only, mid, hbefore, hc⟩ := progress_completes ht hok
  refine (hc.keys id).mpr ⟨hc.posts.keys.subset hkey, fun q hq hmem => ?_⟩
  obtain ⟨m, hm, rfl⟩ := List.mem_map.mp hmem
  have hrep : reportedIn env m = true := List.mem_takeWhile_imp hm
  exact (honce only mid hbefore m.messageId (by simpa [reportedIn] using hrep)).2 hstale

/-- The front of a list that reports in order holds everything reported. -/
theorem not_reported_of_mem_rest (hin : InOrder i env s) {only : List Message} {mid : State}
    (hbefore : beforeTestSome i env s = .ok (only, mid)) {q : Rank} (hq : q < i.nranks)
    {m : TagMessage} (hm : m ∈ completedRest env mid.1 q) : reportedIn env m = false := by
  cases hrest : completedRest env mid.1 q with
  | nil => rw [hrest] at hm; cases hm
  | cons x rest =>
      have hx : reportedIn env x = false := by
        have hhead := List.head?_dropWhile_not (reportedIn env) (mid.1.inTransitMessages q)
        rw [show (mid.1.inTransitMessages q).dropWhile (reportedIn env) = x :: rest from hrest]
          at hhead
        simpa using hhead
      rw [hrest] at hm
      rcases List.mem_cons.mp hm with rfl | hm
      · exact hx
      · -- a later message is not reported before the first one left
        obtain ⟨pre, post, rfl⟩ := List.append_of_mem hm
        have hsplit : mid.1.inTransitMessages q
            = (completedFront env mid.1 q ++ x :: pre) ++ m :: post := by
          rw [← front_append_rest env mid.1 q, hrest]
          simp
        by_contra hrep
        have hall := hin only mid hbefore q hq _ m post hsplit (by simpa using hrep)
        have := hall x (by simp)
        simp [hx] at this

/-- In a run that reports in order nothing gets stale. -/
theorem stale_eq_nil (ht : Tracked i.nranks s.1) (hrun : MpiRun i s stale envs s' stale')
    (hstale : stale = []) (hin : InOrderRun i s envs) : stale' = [] := by
  induction hrun with
  | nil => exact hstale
  | @cons s s₁ s' stale stale' env envs honce hok _ ih =>
      obtain ⟨only, mid, hbefore, hc⟩ := progress_completes ht hok
      refine ih hc.tracked ?_ (hin.2 s₁ hok)
      subst hstale
      rw [staleAfter, List.nil_append, List.filter_eq_nil_iff]
      intro id hid hkey
      obtain ⟨hmid, hnot⟩ := (hc.keys id).mp (by simpa using hkey)
      obtain ⟨q, hq, m, hm, rfl⟩ := hc.tracked_mid.owned id hmid
      rw [← front_append_rest env mid.1 q, List.mem_append] at hm
      rcases hm with hm | hm
      · exact hnot q hq (List.mem_map_of_mem hm)
      · have hrep := not_reported_of_mem_rest hin.1 hbefore hq hm
        simp [reportedIn, hid] at hrep

/-- A receive that is stale at some point is stale at the end. -/
theorem stale_of_stale {id : Nat} (ht : Tracked i.nranks s.1)
    (hrun : MpiRun i s stale envs s' stale') (hkey : id ∈ s.1.keys) (hstale : id ∈ stale) :
    id ∈ s'.1.keys ∧ id ∈ stale' := by
  induction hrun with
  | nil => exact ⟨hkey, hstale⟩
  | cons honce hok _ ih =>
      obtain ⟨only, mid, _, hc⟩ := progress_completes ht hok
      have hkey' := stale_stays ht honce hok hkey hstale
      refine ih hc.tracked hkey' (List.mem_filter.mpr ⟨?_, by simpa using hkey'⟩)
      exact List.mem_append_left _ hstale

/-- In a run that does not report in order some receive is stale at the end. -/
theorem exists_stale (ht : Tracked i.nranks s.1) (hrun : MpiRun i s stale envs s' stale')
    (hin : ¬ InOrderRun i s envs) : ∃ id, id ∈ s'.1.keys ∧ id ∈ stale' := by
  induction hrun with
  | nil => exact absurd trivial hin
  | @cons s s₁ s' stale stale' env envs honce hok hrest ih =>
      obtain ⟨only, mid, hbefore, hc⟩ := progress_completes ht hok
      by_cases hfirst : InOrder i env s
      · refine ih hc.tracked fun htail => hin ⟨hfirst, fun s₂ hok₂ => ?_⟩
        obtain rfl : s₁ = s₂ := Except.ok.inj (hok.symm.trans hok₂)
        exact htail
      · -- a reported message behind one that was not reported stays in transit
        simp only [InOrder, not_forall] at hfirst
        obtain ⟨only', mid', hbefore', q, hq, pre, m, post, hsplit, hrep, m', hm', hnot⟩ := hfirst
        obtain ⟨rfl, rfl⟩ : only = only' ∧ mid = mid' := by
          simpa using Except.ok.inj (hbefore.symm.trans hbefore')
        have hleft : m ∈ completedRest env mid.1 q := by
          obtain ⟨a, b, rfl⟩ := List.append_of_mem hm'
          have hdrop : completedRest env mid.1 q
              = (a ++ m' :: b ++ m :: post).dropWhile (reportedIn env) := by
            rw [← hsplit]
            rfl
          rw [hdrop, List.append_assoc, List.dropWhile_append]
          split
          · simp [hnot]
          · simp
        have hkey : m.messageId ∈ s₁.1.keys :=
          hc.tracked.posted q hq m (by rw [hc.rest q hq]; exact hleft)
        refine ⟨m.messageId, stale_of_stale hc.tracked hrest hkey ?_⟩
        refine List.mem_filter.mpr ⟨List.mem_append_right _ ?_, by simpa using hkey⟩
        simpa [reportedIn] using hrep

/-- What was in transit is, at every point of a run, handed over or still in transit. -/
theorem in_transit_handed_over (ht : Tracked i.nranks s.1)
    (hrun : MpiRun i s stale envs s' stale') :
    Tracked i.nranks s'.1 ∧ ∃ new, s'.1.receivedMessages = s.1.receivedMessages ++ new
      ∧ ∀ q < i.nranks, List.Sublist ((s.1.inTransitMessages q).map fun m => m.message.label)
        (new.map Message.label
          ++ (s'.1.inTransitMessages q).map fun m => m.message.label) := by
  induction hrun with
  | nil => exact ⟨ht, [], by simp⟩
  | @cons s s₁ s' stale stale' env envs honce hok _ ih =>
      obtain ⟨only, mid, _, hc⟩ := progress_completes ht hok
      obtain ⟨ht', new, hnew, hsub⟩ := ih hc.tracked
      obtain ⟨done, hdone, hfront⟩ := hc.received
      refine ⟨ht', only ++ done ++ new, by simp [hnew, hdone], fun q hq => ?_⟩
      have hrest := hsub q hq
      rw [hc.rest q hq] at hrest
      have hpre := ((hc.posts.transit q).map fun m => m.message.label).sublist
      rw [← front_append_rest env mid.1 q, List.map_append] at hpre
      refine hpre.trans ((List.Sublist.append (hfront q hq) hrest).trans ?_)
      simp only [List.map_append, List.append_assoc]
      exact List.sublist_append_right _ _

/-- The maps of in-transit messages and of posted receives are empty. -/
def NothingInTransit (i : Instance) (st : TagExchange) : Prop :=
  (∀ q < i.nranks, st.inTransitMessages q = []) ∧ st.inTransitFutures = []

theorem Tracked.nothing_iff {st : TagExchange} (ht : Tracked i.nranks st) :
    NothingInTransit i st ↔ st.keys = [] := by
  constructor
  · rintro ⟨_, hfut⟩
    rw [TagExchange.keys, hfut, List.map_nil]
  · intro hkeys
    refine ⟨fun q hq => ?_, List.map_eq_nil_iff.mp hkeys⟩
    refine List.eq_nil_iff_forall_not_mem.mpr fun m hm => ?_
    have hkey := ht.posted q hq m hm
    rw [hkeys] at hkey
    cases hkey

/-- After a sequence of `progress` calls in which every payload still in transit was reported
complete by some call, one more call leaves nothing in transit and everything handed over exactly
when every call reported in order. -/
theorem handed_over_iff_in_order (ht : Tracked i.nranks s.1) (hrun : MpiRun i s [] envs s' stale)
    (hreported : ∀ id ∈ s'.1.keys, id ∈ stale) (honce : OnceReported i env s' stale)
    (hquiet : ∀ only mid, beforeTestSome i env s' = .ok (only, mid) → mid.1.keys = s'.1.keys)
    (hlast : progress i env s' = .ok t) :
    (NothingInTransit i t.1 ∧ ∃ new, t.1.receivedMessages = s.1.receivedMessages ++ new
        ∧ ∀ q < i.nranks, List.Sublist ((s.1.inTransitMessages q).map fun m => m.message.label)
          (new.map Message.label))
      ↔ InOrderRun i s envs := by
  obtain ⟨ht', new, hnew, hsub⟩ := in_transit_handed_over ht hrun
  obtain ⟨only, mid, hbefore, hc⟩ := progress_completes ht' hlast
  constructor
  · rintro ⟨hnothing, _⟩
    by_contra hin
    -- a receive that got stale is still posted after the last call
    obtain ⟨id, hkey, hstale⟩ := exists_stale ht hrun hin
    have hleft := stale_stays ht' honce hlast hkey hstale
    rw [(hc.tracked.nothing_iff).mp hnothing] at hleft
    cases hleft
  · intro hin
    have hnil : stale = [] := stale_eq_nil ht hrun rfl hin
    have hkeys : s'.1.keys = [] := by
      refine List.eq_nil_iff_forall_not_mem.mpr fun id hid => ?_
      have := hreported id hid
      rw [hnil] at this
      cases this
    have hlastkeys : t.1.keys = [] := by
      refine List.eq_nil_iff_forall_not_mem.mpr fun id hid => ?_
      have hmid := ((hc.keys id).mp hid).1
      rw [hquiet only mid hbefore, hkeys] at hmid
      cases hmid
    refine ⟨hc.tracked.nothing_iff.mpr hlastkeys, ?_⟩
    obtain ⟨done, hdone, _⟩ := hc.received
    refine ⟨new ++ only ++ done, by simp [hdone, hnew], fun q hq => ?_⟩
    have hq' := hsub q hq
    rw [(ht'.nothing_iff.mpr hkeys).1 q hq, List.map_nil, List.append_nil] at hq'
    refine hq'.trans ?_
    simp only [List.map_append, List.append_assoc]
    exact List.sublist_append_left _ _

/-- Run a sequence of `progress` calls, checking that each reports as `MPI::test_some` does. -/
def mpiRun? (i : Instance) : List (Env i.nranks) → State → List Nat → Option (State × List Nat)
  | [], s, stale => some (s, stale)
  | env :: envs, s, stale =>
      match beforeTestSome i env s, progress i env s with
      | .ok (_, mid), .ok s₁ =>
          if env.reported.all fun id => decide (id ∈ mid.1.keys ∧ id ∉ stale) then
            mpiRun? i envs s₁ (staleAfter stale env.reported s₁)
          else none
      | _, _ => none

theorem mpi_run_of_eq_some (h : mpiRun? i envs s stale = some (s', stale')) :
    MpiRun i s stale envs s' stale' := by
  induction envs generalizing s stale with
  | nil =>
      cases h
      exact .nil
  | cons env envs ih =>
      simp only [mpiRun?] at h
      split at h
      · rename_i only mid s₁ hbefore hok
        split at h
        · rename_i hall
          refine .cons (fun only' mid' hbefore' id hid => ?_) hok (ih h)
          obtain ⟨rfl, rfl⟩ : only = only' ∧ mid = mid' := by
            simpa using Except.ok.inj (hbefore.symm.trans hbefore')
          simpa using List.all_eq_true.mp hall id hid
        · cases h
      · cases h

/-- Whether, after a sequence of calls, everything in transit was reported and one more call that
posts and reports nothing ends with the given property. -/
def settles (i : Instance) (envs : List (Env i.nranks)) (last : Env i.nranks) (s : State)
    (p : TagExchange → Bool) : Bool :=
  match mpiRun? i envs s [] with
  | none => false
  | some (s', stale) =>
      (s'.1.keys.all fun id => decide (id ∈ stale)) && last.reported.isEmpty &&
        match beforeTestSome i last s', progress i last s' with
        | .ok (_, mid), .ok t => mid.1.keys == s'.1.keys && p t.1
        | _, _ => false

theorem exists_of_settles {last : Env i.nranks} {p : TagExchange → Bool}
    (h : settles i envs last s p = true) :
    ∃ s' stale t, MpiRun i s [] envs s' stale ∧ (∀ id ∈ s'.1.keys, id ∈ stale)
      ∧ OnceReported i last s' stale
      ∧ (∀ only mid, beforeTestSome i last s' = .ok (only, mid) → mid.1.keys = s'.1.keys)
      ∧ progress i last s' = .ok t ∧ p t.1 = true := by
  unfold settles at h
  split at h
  · cases h
  · rename_i s' stale hrun
    simp only [Bool.and_eq_true, List.all_eq_true, decide_eq_true_eq, List.isEmpty_iff] at h
    obtain ⟨⟨hall, hempty⟩, hcall⟩ := h
    split at hcall
    · rename_i only mid t hbefore hok
      simp only [Bool.and_eq_true, beq_iff_eq] at hcall
      refine ⟨s', stale, t, mpi_run_of_eq_some hrun, hall, ?_, ?_, hok, hcall.2⟩
      · intro _ _ _ id hid
        rw [hempty] at hid
        cases hid
      · intro only' mid' hbefore'
        obtain ⟨_, rfl⟩ : only = only' ∧ mid = mid' := by
          simpa using Except.ok.inj (hbefore.symm.trans hbefore')
        exact hcall.1
    · cases hcall

end Runs

/-! ## Two payloads of one peer -/

/-- Rank 1 of two ranks. -/
def receiverOne : Instance := ⟨2, 1, 0, 0⟩

/-- Rank 0 has sent two messages with payload to rank 1. -/
def twoPayloads : Except String State :=
  send ⟨2, 0, 0, 0⟩ [⟨1, [1], some (.singleton .host 7)⟩, ⟨1, [2], some (.singleton .host 8)⟩]
    (.initial, ⟨fun _ => .empty, fun _ => .empty⟩)

/-- Rank 1 before its first call. -/
def beforeCalls : State :=
  (.initial, match twoPayloads with
    | .ok s => s.2
    | .error _ => ⟨fun _ => .empty, fun _ => .empty⟩)

/-- A `progress` call that reports the given receives complete. -/
def reporting (reported : List Nat) : Env 2 where
  arrived := fun _ => 2
  alloc := fun _ _ _ => some (.singleton .host 0)
  writeDone := fun _ => true
  now := 0
  incomingOrder := [0, 1]
  reported := reported
  transitOrder := [0, 1]
  movedToDisk := fun _ => false
  sendsCompleted := 0
  incoming_perm := zero_one_perm
  transit_perm := zero_one_perm

/-- With the payloads reported in order nothing is forgotten. -/
theorem in_order_of_handed_over_two :
    InOrderRun receiverOne beforeCalls [reporting [], reporting [0], reporting [1]] := by
  have hsettles : settles receiverOne [reporting [], reporting [0], reporting [1]] (reporting [])
      beforeCalls (fun st => (st.inTransitMessages 0).isEmpty && (st.inTransitMessages 1).isEmpty
        && st.inTransitFutures.isEmpty && st.receivedMessages.length == 2) = true := by
    decide +kernel
  obtain ⟨s', stale, t, hrun, hall, honce, hquiet, hok, hp⟩ := exists_of_settles hsettles
  simp only [Bool.and_eq_true, List.isEmpty_iff] at hp
  obtain ⟨⟨⟨h0, h1⟩, hfut⟩, _⟩ := hp
  refine (handed_over_iff_in_order (.initial _) hrun hall honce hquiet hok).mp
    ⟨⟨fun q hq => ?_, hfut⟩, t.1.receivedMessages, rfl, fun q _ => ?_⟩
  · have hcases : q = 0 ∨ q = 1 := by
      have : q < 2 := hq
      omega
    rcases hcases with rfl | rfl
    · exact h0
    · exact h1
  · exact List.nil_sublist _

/-- The second payload is reported before the first: although both were reported, one more call
leaves the second message in transit. -/
theorem forgotten_transfer : ∃ (i : Instance) (s s' t : State) (stale : List Nat)
    (envs : List (Env i.nranks)) (env : Env i.nranks),
    Tracked i.nranks s.1 ∧ MpiRun i s [] envs s' stale ∧ (∀ id ∈ s'.1.keys, id ∈ stale)
      ∧ OnceReported i env s' stale
      ∧ (∀ only mid, beforeTestSome i env s' = .ok (only, mid) → mid.1.keys = s'.1.keys)
      ∧ progress i env s' = .ok t ∧ ¬ NothingInTransit i t.1 := by
  have hsettles : settles receiverOne [reporting [], reporting [1], reporting [0]] (reporting [])
      beforeCalls (fun st => ! (st.inTransitMessages 0).isEmpty) = true := by
    decide +kernel
  obtain ⟨s', stale, t, hrun, hall, honce, hquiet, hok, hp⟩ := exists_of_settles hsettles
  refine ⟨receiverOne, beforeCalls, s', t, stale, _, _, .initial _, hrun, hall, honce, hquiet,
    hok, fun hnothing => ?_⟩
  have hzero : 0 < receiverOne.nranks := by decide
  rw [hnothing.1 0 hzero] at hp
  cases hp

end Rapidsmpf.Exchange
