import Mathlib
import Rapidsmpf.Exchange.Chain

/-!
# The parts of `progress`

A `progress` call goes through the iterations of three loops and a forced allocation between the
first two. Each of them is a `Part` here, so that a run can be looked at between any two of them.
`run_parts` says that a `progress` call is a run of parts; `Cluster.between` is the system of all
ranks that takes the parts as its steps, with a clock for every rank.
-/

namespace Rapidsmpf.Exchange

open Protocol Fallible

/-- The iterations of the loops of `progress`, and its other steps. -/
inductive Part (n : Nat) where
  /-- The messages of one peer in `receive_metadata`. -/
  | receive (peer : Fin n)
  /-- `force_allocation_progress_if_stalled`. -/
  | force
  /-- The messages of one source in `setup_data_receives`. -/
  | setup (src : Fin n)
  /-- The messages of one source in `complete_data_transfers`. -/
  | complete (src : Fin n)
  | cleanup

/-- `received_messages_` with the messages that were completed. -/
def TagExchange.handOver (messages : List Message) (st : TagExchange) : TagExchange :=
  { st with receivedMessages := st.receivedMessages ++ messages }

variable {n : Nat}

/-- One part. Messages are handed over when they are completed, which is the order in which
`progress` hands them over at its end. -/
def part (i : Instance) (env : Env n) : Part n → State → Except String State
  | .receive peer, s =>
      if peer.val = i.rank ∨ peerDone s.1 peer then pure s
      else receiveFrom i env peer (env.arrived peer) s
  | .force, s => do
      let st ← forceAllocationProgressIfStalled i env s.1
      pure (st, s.2)
  | .setup src, s => do
      let (completed, s) ← setupSource i env ([], s) src
      pure (s.1.handOver completed, s.2)
  | .complete src, s => do
      let (completed, st) ← completeSource i env s.2 ([], s.1) src
      pure (st.handOver completed, s.2)
  | .cleanup, s => pure (cleanupCompletedOperations env s.1, s.2)

variable {i : Instance} {env : Env n}

/-! ## A call is a run of parts -/

@[simp] theorem hand_over_nil (st : TagExchange) : st.handOver [] = st := by
  simp [TagExchange.handOver]

@[simp] theorem hand_over_append (xs ys : List Message) (st : TagExchange) :
    (st.handOver xs).handOver ys = st.handOver (xs ++ ys) := by
  simp [TagExchange.handOver]

/-- Messages handed over before an allocation are left alone by it. -/
theorem try_attach_hand_over (point : AllocationPoint) (mode : AllocationMode) (m : TagMessage)
    (st : TagExchange) (xs : List Message) :
    tryAttachReceiveBuffer env point mode m (st.handOver xs) =
      (tryAttachReceiveBuffer env point mode m st).map
        (Option.map fun r => (r.1, r.2.handOver xs)) := by
  unfold tryAttachReceiveBuffer
  split
  · rfl
  · split
    · split <;> rfl
    · rfl

theorem post_receive_hand_over (src : Rank) (m : TagMessage) (st : TagExchange) (comm : Comm)
    (xs : List Message) :
    postReceive i src m (st.handOver xs, comm) =
      (postReceive i src m (st, comm)).map fun s => (s.1.handOver xs, s.2) := by
  have hsame : (st.handOver xs).inTransitFutures = st.inTransitFutures := rfl
  unfold postReceive
  split
  · rfl
  · simp only [hsame]
    by_cases hposted : (st.inTransitFutures.lookup m.messageId).isSome = true
    · rw [if_pos hposted, if_pos hposted]
      rfl
    · rw [if_neg hposted, if_neg hposted]
      rfl

theorem setup_rank_hand_over (src : Rank) (msgs : List TagMessage) (st : TagExchange)
    (comm : Comm) (xs : List Message) :
    setupRank i env src msgs (st.handOver xs, comm) =
      (setupRank i env src msgs (st, comm)).map fun r =>
        (r.1, r.2.1, (r.2.2.1.handOver xs, r.2.2.2)) := by
  induction msgs with
  | nil => rfl
  | cons m rest ih =>
      simp only [setupRank]
      by_cases hsize : 0 < m.expectedPayloadSize
      · simp only [if_pos hsize]
        cases hwait : m.isAwaitingBuffer with
        | true =>
            simp only [if_true, try_attach_hand_over]
            cases htry : tryAttachReceiveBuffer env .setupDataReceives .mayFail m st with
            | error e => rfl
            | ok attached =>
                cases attached with
                | none => rfl
                | some pair =>
                    simp only [Except.map, Option.map, bind, Except.bind]
                    split
                    · rfl
                    · rw [post_receive_hand_over]
                      cases postReceive i src pair.1 (pair.2, comm) <;> rfl
        | false =>
            simp only [Bool.false_eq_true, if_false, pure, Except.pure, bind, Except.bind]
            split
            · rfl
            · rw [post_receive_hand_over]
              cases postReceive i src m (st, comm) <;> rfl
      · simp only [if_neg hsize]
        rw [ih]
        have hsame : (st.handOver xs).inTransitMessages = st.inTransitMessages := rfl
        rw [hsame]
        split
        · cases setupRank i env src rest (st, comm) <;> rfl
        · rfl

/-- The iteration for one source, with what was completed before already handed over. -/
theorem part_setup (src : Fin n) (acc : List Message) (s : State) :
    part i env (.setup src) (s.1.handOver acc, s.2) =
      (setupSource i env (acc, s) src).map fun r => (r.2.1.handOver r.1, r.2.2) := by
  have hsame : (s.1.handOver acc).incomingMessages = s.1.incomingMessages := rfl
  simp only [part, setupSource, hsame, setup_rank_hand_over]
  cases setupRank i env src (s.1.incomingMessages src) (s.1, s.2) with
  | error e => rfl
  | ok r =>
      simp [bind, Except.bind, pure, Except.pure, Except.map, TagExchange.handOver]

theorem part_complete (src : Fin n) (only acc : List Message) (st : TagExchange) (comm : Comm) :
    part i env (.complete src) (st.handOver (only ++ acc), comm) =
      (completeSource i env comm (acc, st) src).map fun r =>
        (r.2.handOver (only ++ r.1), comm) := by
  have htransit : (st.handOver (only ++ acc)).inTransitMessages = st.inTransitMessages := rfl
  have hfutures : (st.handOver (only ++ acc)).inTransitFutures = st.inTransitFutures := rfl
  simp only [part, completeSource, htransit, hfutures]
  cases completeRank i env comm (st.inTransitMessages src) st.inTransitFutures with
  | error e => rfl
  | ok r =>
      simp [bind, Except.bind, pure, Except.pure, Except.map, TagExchange.handOver]

section Loops

variable {α : Type} (i : Instance) (env : Env n) (f : Fin n → Part n)

/-- A loop of which every iteration is a part is a run of parts. -/
theorem run_loop (body : α → Rank → Except String α) (view : α → State)
    (hbody : ∀ a q, part i env (f q) (view a) = (body a q).map view) (l : List (Fin n)) (a : α) :
    run (part i env) (l.map f) (view a) = ((l.map Fin.val).foldlM body a).map view := by
  induction l generalizing a with
  | nil => rfl
  | cons q l ih =>
      have hfirst : run (part i env) ((q :: l).map f) (view a) =
          part i env (f q) (view a) >>= fun s => run (part i env) (l.map f) s := rfl
      rw [hfirst, hbody, List.map_cons, List.foldlM_cons]
      cases body a q with
      | error e => rfl
      | ok a' => exact ih a'

end Loops

theorem run_append (ps qs : List (Part n)) (s : State) :
    run (part i env) (ps ++ qs) s = run (part i env) ps s >>= run (part i env) qs :=
  List.foldlM_append

/-- The ranks of a list of ranks below `n`. -/
theorem exists_map_val {l : List Rank} (h : l.Perm (List.range n)) :
    ∃ l' : List (Fin n), l'.map Fin.val = l := by
  refine ⟨l.pmap Fin.mk fun q hq => List.mem_range.mp (h.mem_iff.mp hq), ?_⟩
  rw [List.map_pmap]
  exact List.pmap_eq_self.mpr fun _ _ => rfl

section Progress

variable (i : Instance) (env : Env i.nranks)

theorem run_receive_metadata (s : State) :
    ∃ ps, run (part i env) ps s = receiveMetadata i env s := by
  obtain ⟨l, hl⟩ := exists_map_val (n := i.nranks) (List.Perm.refl (List.range i.nranks))
  refine ⟨l.map .receive, ?_⟩
  have hloop := run_loop i env .receive (fun s peer =>
    if peer = i.rank ∨ peerDone s.1 peer then pure s
    else receiveFrom i env peer (env.arrived peer) s) id (fun s q => ?_) l s
  · rw [hl, Except.map_id] at hloop
    exact hloop
  · rw [Except.map_id]
    rfl

theorem run_setup_data_receives (s : State) :
    ∃ ps, run (part i env) ps s =
      (setupDataReceives i env s).map fun r => (r.2.1.handOver r.1, r.2.2) := by
  obtain ⟨l, hl⟩ := exists_map_val env.incoming_perm
  refine ⟨.force :: l.map .setup, ?_⟩
  have hloop := fun st : TagExchange => run_loop i env .setup (setupSource i env)
    (fun r => (r.2.1.handOver r.1, r.2.2)) (fun r q => part_setup q r.1 r.2) l ([], (st, s.2))
  have hforce : run (part i env) (.force :: l.map .setup) s =
      part i env .force s >>= run (part i env) (l.map .setup) := rfl
  rw [hforce]
  simp only [part, setupDataReceives]
  cases forceAllocationProgressIfStalled i env s.1 with
  | error e => rfl
  | ok st =>
      have hst := hloop st
      rw [hl] at hst
      simpa [bind, Except.bind, pure, Except.pure] using hst

theorem run_complete_data_transfers (only : List Message) (s : State) :
    ∃ ps, run (part i env) ps (s.1.handOver only, s.2) =
      (completeDataTransfers i env s).map fun r => (r.2.handOver (only ++ r.1), s.2) := by
  by_cases hempty : s.1.inTransitFutures.isEmpty = true
  · refine ⟨[], ?_⟩
    rw [completeDataTransfers, if_pos hempty]
    simp [run, pure, Except.pure, Except.map]
  · obtain ⟨l, hl⟩ := exists_map_val env.transit_perm
    refine ⟨l.map .complete, ?_⟩
    have hloop := run_loop i env .complete (completeSource i env s.2)
      (fun r => (r.2.handOver (only ++ r.1), s.2))
      (fun r q => part_complete q only r.1 r.2 s.2) l ([], s.1)
    rw [hl] at hloop
    rw [completeDataTransfers, if_neg hempty]
    simpa using hloop

/-- A `progress` call is a run of parts, also when it fails. -/
theorem run_parts (s : State) : ∃ ps, run (part i env) ps s = progress i env s := by
  obtain ⟨ps₁, hreceive⟩ := run_receive_metadata i env s
  cases hmeta : receiveMetadata i env s with
  | error e =>
      refine ⟨ps₁, ?_⟩
      rw [hreceive, hmeta, progress, hmeta]
      rfl
  | ok s₁ =>
      obtain ⟨ps₂, hsetup⟩ := run_setup_data_receives i env s₁
      have hbefore : run (part i env) (ps₁ ++ ps₂) s =
          (setupDataReceives i env s₁).map fun r => (r.2.1.handOver r.1, r.2.2) := by
        rw [run_append, hreceive, hmeta]
        exact hsetup
      cases hreceives : setupDataReceives i env s₁ with
      | error e =>
          refine ⟨ps₁ ++ ps₂, ?_⟩
          rw [hbefore, hreceives, progress, hmeta]
          simp [bind, Except.bind, hreceives, Except.map]
      | ok r =>
          obtain ⟨only, s₂⟩ := r
          obtain ⟨ps₃, hcomplete⟩ := run_complete_data_transfers i env only s₂
          refine ⟨ps₁ ++ ps₂ ++ (ps₃ ++ [.cleanup]), ?_⟩
          rw [run_append, hbefore, hreceives]
          simp only [Except.map, bind, Except.bind]
          rw [run_append, hcomplete, progress, hmeta]
          simp only [bind, Except.bind, hreceives]
          cases completeDataTransfers i env s₂ with
          | error e => rfl
          | ok r =>
              simp [Except.map, run, part, pure, Except.pure, TagExchange.handOver,
                cleanupCompletedOperations, bind, Except.bind]

end Progress

/-! ## What a part keeps -/

section Keeps

variable {h : Rank → List Event} {delivered : Rank → List (Bytes × Bytes)} {s s' : State}

/-- The receiver's record does not depend on where the messages handed over are kept. -/
theorem Receiver.hand_over {out out' xs : List Message} (hr : Receiver i h delivered out s)
    (hout : out' = out) : Receiver i h delivered out' (s.1.handOver xs, s.2) := by
  subst hout
  exact ⟨hr.peer, hr.incoming_self, hr.transit_self⟩

theorem Frame.sender {xs : List Message} (h : Frame i.rank s s') :
    SenderFrame i.rank s (s'.1.handOver xs, s'.2) :=
  ⟨h.finished, h.messagesSentTo, h.nextMessageId, h.metadata, h.gpuData⟩

theorem part_keeps (hn : n = i.nranks) (hev : ∀ q, q < i.nranks → q ≠ i.rank → Events (h q))
    {p : Part n} (hok : part i env p s = .ok s')
    (hr : Receiver i h delivered s.1.receivedMessages s) :
    SenderFrame i.rank s s' ∧ Receiver i h delivered s'.1.receivedMessages s' := by
  cases p with
  | receive peer =>
      obtain ⟨hf, hr'⟩ := receive_peer_keeps hev (hn ▸ peer.isLt) hr hok
      exact ⟨⟨hf.finished, hf.messagesSentTo, hf.nextMessageId, hf.metadata, hf.gpuData⟩,
        hf.receivedMessages ▸ hr'⟩
  | force =>
      obtain ⟨st, hforce, hok⟩ := bind_eq_ok.mp hok
      cases hok
      have hr₀ : Receiver i h delivered s.1.receivedMessages (s.1, s.2) := hr
      obtain ⟨hf, hr'⟩ := force_allocation_keeps hr₀ hforce
      refine ⟨⟨hf.finished, hf.messagesSentTo, hf.nextMessageId, hf.metadata, hf.gpuData⟩, ?_⟩
      exact (show st.receivedMessages = s.1.receivedMessages from hf.receivedMessages) ▸ hr'
  | setup src =>
      obtain ⟨⟨completed, t⟩, hsetup, hok⟩ := bind_eq_ok.mp hok
      cases hok
      have hr₀ : Receiver i h delivered (s.1.receivedMessages ++ []) s := by simpa using hr
      obtain ⟨hf, hr'⟩ := setup_source_keeps (hn ▸ src.isLt) hsetup hr₀
      refine ⟨hf.sender, hr'.hand_over ?_⟩
      show t.1.receivedMessages ++ completed = _
      rw [hf.receivedMessages]
  | complete src =>
      obtain ⟨⟨completed, st⟩, hcomplete, hok⟩ := bind_eq_ok.mp hok
      cases hok
      have hr₀ : Receiver i h delivered (s.1.receivedMessages ++ []) (s.1, s.2) := by
        simpa using hr
      obtain ⟨hf, hr'⟩ := complete_source_keeps (hn ▸ src.isLt) hcomplete hr₀
      refine ⟨hf.sender, hr'.hand_over ?_⟩
      show st.receivedMessages ++ completed = _
      rw [show st.receivedMessages = s.1.receivedMessages from hf.receivedMessages]
  | cleanup =>
      cases hok
      exact ⟨⟨rfl, rfl, rfl, fun _ _ => rfl, fun _ _ => rfl⟩,
        ⟨hr.peer, hr.incoming_self, hr.transit_self⟩⟩

/-- A part of the rank `r` keeps all events. -/
theorem Agrees.part {c : Cluster} {h : Rank → Rank → List Event} {g : Global} {r : Rank}
    (ha : Agrees c h g) (hr : r < c.nranks) {env : Env c.nranks} {p : Part c.nranks} {x : State}
    (hok : Exchange.part (c.current g r) env p (g.exchange r, g.comm) = .ok x) :
    Agrees c h (g.put r x) := by
  have hev : ∀ q, q < (c.current g r).nranks → q ≠ (c.current g r).rank → Events (h q r) :=
    fun q hq hne => (ha.sender q hq).events r hr (Ne.symm hne)
  obtain ⟨hframe, hrec⟩ := part_keeps (h := fun q => h q r) rfl hev hok (ha.receiver r hr)
  exact ha.receives hr hframe hrec

end Keeps

/-! ## The system of parts -/

/-- The message that arrived with this number has its receive buffer. -/
def TagExchange.Holds (st : TagExchange) (arrival : Nat) : Prop :=
  (∃ q, ∃ m ∈ st.incomingMessages q, m.arrival = arrival ∧ 0 < m.expectedPayloadSize ∧
    m.isAwaitingBuffer = false) ∨
  ∃ q, ∃ m ∈ st.inTransitMessages q, m.arrival = arrival

/-- All ranks between two parts. `clock` records when a rank took its last part, and `allocated`
when a message of its current exchange last got its receive buffer. -/
structure Between where
  global : Global
  clock : Rank → Nat
  allocated : Rank → Option Nat

/-- The state before any call. -/
def Between.initial : Between := ⟨.initial, fun _ => 0, fun _ => none⟩

inductive Move (nranks : Nat) where
  | call (call : Call nranks)
  | part (env : Env nranks) (p : Part nranks)

namespace Cluster

variable (c : Cluster)

/-- A move of the rank `r`: a call other than `progress`, or a part of `progress`. The clock of a
rank does not go back. -/
inductive Moves (r : Rank) (x : Between) : Move c.nranks → Between → Prop where
  | call {call : Call c.nranks} {g : Global} : (∀ env, call ≠ .progress env) → call ≠ .next →
      c.call r call x.global = .ok g → Moves r x (.call call) { x with global := g }
  | next {g : Global} : c.call r .next x.global = .ok g →
      Moves r x (.call .next) { x with
        global := g, allocated := Function.update x.allocated r none }
  | part {env : Env c.nranks} {p : Part c.nranks} {y : State} : x.clock r ≤ env.now →
      Exchange.part (c.current x.global r) env p (x.global.exchange r, x.global.comm) = .ok y →
      (∀ a, y.1.Holds a → (x.global.exchange r).Holds a) →
      Moves r x (.part env p) { x with
        global := x.global.put r y, clock := Function.update x.clock r env.now }
  | allocate {env : Env c.nranks} {p : Part c.nranks} {y : State} : x.clock r ≤ env.now →
      Exchange.part (c.current x.global r) env p (x.global.exchange r, x.global.comm) = .ok y →
      (∃ a, y.1.Holds a ∧ ¬ (x.global.exchange r).Holds a) →
      Moves r x (.part env p) { x with
        global := x.global.put r y
        clock := Function.update x.clock r env.now
        allocated := Function.update x.allocated r (some env.now) }

/-- The ranks as a transition system whose steps are calls and the parts of `progress`. -/
def between : System Between (Rank × Move c.nranks) where
  init x := x = .initial
  step x l x' := l.1 < c.nranks ∧ c.Moves l.1 x l.2 x'

end Cluster

section Runs

variable {c : Cluster} {x : Between} {r : Rank} {env : Env c.nranks} {y : State}

theorem Global.put_self (g : Global) : g.put r (g.exchange r, g.comm) = g := by
  simp [Global.put]

theorem Global.put_put (g : Global) (y z : State) : (g.put r y).put r z = g.put r z := by
  simp [Global.put]

/-- A part that succeeds is a move. -/
theorem exists_moves {p : Part c.nranks} (hclock : x.clock r ≤ env.now)
    (hok : part (c.current x.global r) env p (x.global.exchange r, x.global.comm) = .ok y) :
    ∃ x', c.Moves r x (.part env p) x' ∧ x'.global = x.global.put r y ∧ x'.clock r ≤ env.now := by
  by_cases hsame : ∀ a, y.1.Holds a → (x.global.exchange r).Holds a
  · exact ⟨_, .part hclock hok hsame, rfl, by simp⟩
  · push Not at hsame
    exact ⟨_, .allocate hclock hok hsame, rfl, by simp⟩

/-- So is a run of parts. -/
theorem reachable_run {ps : List (Part c.nranks)} (hx : c.between.Reachable x)
    (hr : r < c.nranks) (hclock : x.clock r ≤ env.now)
    (hok : run (part (c.current x.global r) env) ps (x.global.exchange r, x.global.comm) = .ok y) :
    ∃ x', c.between.Reachable x' ∧ x'.global = x.global.put r y ∧ x'.clock r ≤ env.now := by
  induction ps generalizing x with
  | nil =>
      cases hok
      exact ⟨x, hx, x.global.put_self.symm, hclock⟩
  | cons p ps ih =>
      obtain ⟨y₁, hfirst, hrest⟩ := bind_eq_ok.mp (show part (c.current x.global r) env p
        (x.global.exchange r, x.global.comm) >>= run (part (c.current x.global r) env) ps = .ok y
        from hok)
      obtain ⟨x₁, hmove, hglobal, hclock₁⟩ := exists_moves hclock hfirst
      have hx₁ : c.between.Reachable x₁ := hx.next (l := (r, .part env p)) ⟨hr, hmove⟩
      obtain ⟨x', hx', hput, hclock'⟩ := ih hx₁ hclock₁ (by
        rw [hglobal, Global.exchange_put]
        exact hrest)
      refine ⟨x', hx', ?_, hclock'⟩
      rw [hput, hglobal, Global.put_put]

/-- A `progress` call that succeeds goes through reachable states only. -/
theorem reachable_progress (hx : c.between.Reachable x) (hr : r < c.nranks)
    (hclock : x.clock r ≤ env.now)
    (hok : progress (c.current x.global r) env (x.global.exchange r, x.global.comm) = .ok y) :
    ∃ x', c.between.Reachable x' ∧ x'.global = x.global.put r y ∧ x'.clock r ≤ env.now := by
  obtain ⟨ps, hps⟩ := run_parts (c.current x.global r) env
    (x.global.exchange r, x.global.comm)
  exact reachable_run hx hr hclock (hps.trans hok)

theorem run_eq_error {i : Instance} {env : Env n} {ps : List (Part n)} {s : State} {e : String}
    (h : run (part i env) ps s = .error e) :
    ∃ qs p t, run (part i env) qs s = .ok t ∧ part i env p t = .error e := by
  induction ps generalizing s with
  | nil => cases h
  | cons p ps ih =>
      have hbind : part i env p s >>= run (part i env) ps = .error e := h
      rcases bind_eq_error.mp hbind with hfirst | ⟨t, hfirst, hrest⟩
      · exact ⟨[], p, s, rfl, hfirst⟩
      · obtain ⟨qs, q, u, hrun, hfail⟩ := ih hrest
        refine ⟨p :: qs, q, u, ?_, hfail⟩
        exact bind_eq_ok.mpr ⟨t, hfirst, hrun⟩

/-- When a `progress` call fails, a part does in a reachable state. -/
theorem exists_failing_part {e : String} (hx : c.between.Reachable x) (hr : r < c.nranks)
    (hclock : x.clock r ≤ env.now)
    (hfail : progress (c.current x.global r) env (x.global.exchange r, x.global.comm) =
      .error e) :
    ∃ x' p, c.between.Reachable x' ∧ x'.global.sendCount = x.global.sendCount ∧
      part (c.current x'.global r) env p (x'.global.exchange r, x'.global.comm) = .error e := by
  obtain ⟨ps, hps⟩ := run_parts (c.current x.global r) env
    (x.global.exchange r, x.global.comm)
  obtain ⟨qs, p, y, hrun, hpart⟩ := run_eq_error (hps.trans hfail)
  obtain ⟨x', hx', hglobal, -⟩ := reachable_run hx hr hclock hrun
  refine ⟨x', p, hx', by rw [hglobal]; rfl, ?_⟩
  rw [hglobal, Global.exchange_put]
  exact hpart

end Runs

end Rapidsmpf.Exchange
