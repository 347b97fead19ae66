import Rapidsmpf.Lib.Transition
import Rapidsmpf.Lib.Fallible
import Rapidsmpf.Shuffle.Conservation

/-!
# When a shuffler signals its completion

`Shuffler::Progress::operator()` of one rank as a machine that makes one access to shared state at
a time, interleaved with the application thread, which inserts chunks, calls `insert_finished` and
shuts the shuffler down. The exchange is a parameter. `Drained` is what should hold when
`can_extract_` is set and when the function returns `Done`; `locally_finished_` is loaded twice in
one call, and what happens in between decides whether it does.
-/

namespace Rapidsmpf.Shuffle.Signal

open Protocol Fallible

/-- What the shuffler calls of its `MetadataPayloadExchange` with the members `M`. What the
surroundings decide in one `progress` call, the arrival of messages included, is of type `E`. -/
structure Mpe (M E : Type) where
  send : List Exchange.Message → M → Except String M
  progress : E → M → Except String M
  recv : M → List Exchange.Message × M
  finish : M → Except String M
  isIdle : M → Bool

/-- The next access of `operator()` to shared state, with its local variables. -/
inductive Control where
  | extractReady
  | send (chunks : List Chunk)
  | progress
  | recv
  | place (messages : List Exchange.Message)
  | addFinished (messages : List Exchange.Message)
  | loadLocallyFinished
  | toSendEmpty
  | finish
  | isIdle
  | toSendEmptyAgain
  | loadLocallyFinishedAgain (containersEmpty : Bool)
  | allFinished (containersEmpty : Bool)
  | loadActive (containersEmpty isFinished : Bool)
  | signal (containersEmpty isFinished isDone : Bool)
  | returned (isDone : Bool)

/-- A shuffler with its two threads. The last two members record the chunks inserted for other
ranks and those handed to `mpe_->send()`. -/
structure State (M : Type) where
  shuffler : Shuffler
  phase : Phase
  pending : Nat
  mpe : M
  mpeFinishCalled : Bool
  control : Control
  insertedRemote : List Chunk
  handed : List Chunk

/-- The steps of the two threads. -/
inductive Label (E : Type) where
  | insert (pid : PartID) (d : PackedData) (memType : MemoryType)
  | startFinish
  | finishFor
  | finishDone
  | addFinished
  | shutdown
  | communicate (env : E)
  | thread (ready : Nat) (memType : MemoryType)

section Model

variable {M E : Type} (mpe : Mpe M E) (cfg : Config) (rank : Rank)

/-- The state before any call. -/
def State.initial (m₀ : M) : State M where
  shuffler := .initial cfg rank
  phase := .inserting
  pending := 0
  mpe := m₀
  mpeFinishCalled := false
  control := .extractReady
  insertedRemote := []
  handed := []

/-- The application thread called `insert(Chunk)`, which left the shuffler `sh`. -/
def State.logInsert (c : Chunk) (sh : Shuffler) (s : State M) : State M :=
  if cfg.partitionOwner c.partId = rank then
    { s with shuffler := sh, pending := s.pending + 1 }
  else { s with shuffler := sh, insertedRemote := s.insertedRemote ++ [c] }

/-- One step of `operator()` other than the call of `mpe_->progress()`. -/
def threadStep (ready : Nat) (memType : MemoryType) (s : State M) : Except String (State M) :=
  let sh := s.shuffler
  match s.control with
  | .extractReady =>
      let (chunks, sh) := Shuffle.extractReady ready sh
      pure { s with shuffler := sh, control := .send chunks }
  | .send chunks =>
      if chunks.isEmpty then pure { s with control := .progress }
      else
        let messages := chunks.map (convertChunkToMessage cfg)
        if messages.any fun m => m.peerRank = rank then throw "sending message to ourselves"
        else do
          let m ← mpe.send messages s.mpe
          pure { s with mpe := m, handed := s.handed ++ chunks, control := .progress }
  | .progress => throw "in mpe_->progress()"
  | .recv =>
      let (messages, m) := mpe.recv s.mpe
      pure { s with mpe := m, control := .place messages }
  | .place [] => pure { s with control := .loadLocallyFinished }
  | .place (message :: rest) => do
      let c ← chunkOfMessage cfg rank memType message
      let sh ← insertIntoReceived c sh
      pure { s with shuffler := sh, control := .addFinished rest }
  | .addFinished rest => do
      let sh ← addFinishedChunk sh
      pure { s with shuffler := sh, control := .place rest }
  -- `!mpe_finish_called_ && locally_finished_.load() && to_send_.empty()`
  | .loadLocallyFinished =>
      pure { s with control :=
        if !s.mpeFinishCalled && sh.locallyFinished then .toSendEmpty else .isIdle }
  | .toSendEmpty => pure { s with control := if sh.toSend.isEmpty then .finish else .isIdle }
  | .finish => do
      let m ← mpe.finish s.mpe
      pure { s with mpe := m, mpeFinishCalled := true, control := .isIdle }
  -- `containers_empty`
  | .isIdle =>
      pure { s with control :=
        if mpe.isIdle s.mpe then .toSendEmptyAgain else .loadLocallyFinishedAgain false }
  | .toSendEmptyAgain => pure { s with control := .loadLocallyFinishedAgain sh.toSend.isEmpty }
  -- `is_finished`
  | .loadLocallyFinishedAgain containersEmpty =>
      pure { s with control :=
        if sh.locallyFinished then .allFinished containersEmpty
        else .loadActive containersEmpty false }
  | .allFinished containersEmpty =>
      pure { s with control := .loadActive containersEmpty sh.finishCounter.allFinished }
  -- `is_done`
  | .loadActive containersEmpty isFinished =>
      let isDone := !sh.active && isFinished && containersEmpty
      pure { s with control := .signal containersEmpty isFinished isDone }
  | .signal containersEmpty isFinished isDone =>
      let sh := { sh with canExtract := sh.canExtract || (isFinished && containersEmpty) }
      pure { s with shuffler := sh, control := .returned isDone }
  | .returned true => throw "not called again after Done"
  | .returned false => pure { s with control := .extractReady }

/-- One step. -/
def step : Label E → State M → Except String (State M)
  | .insert pid d memType, s =>
      if s.phase ≠ .inserting then throw "insert() after insert_finished()"
      else if ¬ pid < cfg.totalNumPartitions then throw "no such partition"
      else do
        let sh ← Shuffle.insert cfg rank pid d memType s.shuffler
        if d.empty then pure { s with shuffler := sh }
        else pure (s.logInsert cfg rank (insertedChunk rank pid d memType s.shuffler) sh)
  | .startFinish, s =>
      if s.phase = .inserting then pure { s with phase := .finishing 0 }
      else throw "insert_finished() called twice"
  | .finishFor, s =>
      match s.phase with
      | .finishing r =>
          if r < cfg.nranks then do
            let sh ← insertFinishedFor cfg rank r s.shuffler
            let s := { s with phase := .finishing (r + 1) }
            if representativePid cfg r = cfg.totalNumPartitions then pure { s with shuffler := sh }
            else pure (s.logInsert cfg rank (finishChunk cfg rank r s.shuffler) sh)
          else throw "announced to all ranks"
      | _ => throw "not in insert_finished()"
  | .finishDone, s =>
      if s.phase = .finishing cfg.nranks then
        pure { s with phase := .finished, shuffler := storeLocallyFinished s.shuffler }
      else throw "not announced to all ranks"
  | .addFinished, s =>
      if s.pending = 0 then throw "no call of add_finished_chunk is due"
      else do
        let sh ← addFinishedChunk s.shuffler
        pure { s with shuffler := sh, pending := s.pending - 1 }
  | .shutdown, s =>
      if s.shuffler.locallyFinished then
        pure { s with shuffler := { s.shuffler with active := false } }
      else throw "Destroying shuffler without `insert_finished()`"
  | .communicate env, s =>
      match s.control with
      | .progress => do
          let m ← mpe.progress env s.mpe
          pure { s with mpe := m, control := .recv }
      | _ => throw "not in mpe_->progress()"
  | .thread ready memType, s => threadStep mpe cfg rank ready memType s

/-- The two threads as a transition system. -/
def system (m₀ : M) : System (State M) (Label E) where
  init := fun s => s = .initial cfg rank m₀
  step := fun s l s' => step mpe cfg rank l s = .ok s'

end Model

/-! ## What should hold at completion -/

variable {M E : Type} {mpe : Mpe M E} {cfg : Config} {rank : Rank} {m₀ : M} {s s' : State M}

/-- Nothing is left to send: every chunk inserted for another rank was handed to the exchange,
which was told that there are no more. -/
structure Drained (s : State M) : Prop where
  toSend : s.shuffler.toSend = []
  handed : s.handed = s.insertedRemote
  finish : s.mpeFinishCalled = true

/-- `insert_finished` does not store `locally_finished_` while `operator()` is between its two
loads of it with nothing to send, or with its containers already found empty. -/
def StoreOutsideWindow (s : State M) : Label E → Prop
  | .finishDone =>
      match s.control with
      | .isIdle => s.shuffler.toSend ≠ []
      | .toSendEmptyAgain => s.shuffler.toSend ≠ []
      | .loadLocallyFinishedAgain containersEmpty => containersEmpty = false
      | _ => True
  | _ => True

/-- The chunks `operator()` holds between `extract_ready` and `mpe_->send()`. -/
def Control.inHand : Control → List Chunk
  | send chunks => chunks
  | _ => []

/-- What `operator()` knows from its earlier accesses. -/
def Control.Knows (s : State M) : Control → Prop
  | toSendEmpty => s.shuffler.locallyFinished = true
  | finish => s.shuffler.locallyFinished = true ∧ s.shuffler.toSend = []
  | isIdle | toSendEmptyAgain => s.shuffler.locallyFinished = true →
      s.shuffler.toSend = [] → s.mpeFinishCalled = true
  | loadLocallyFinishedAgain containersEmpty => s.shuffler.locallyFinished = true →
      containersEmpty = true → s.mpeFinishCalled = true
  | allFinished containersEmpty => containersEmpty = true → s.mpeFinishCalled = true
  | loadActive containersEmpty isFinished =>
      (isFinished && containersEmpty) = true → s.mpeFinishCalled = true
  | signal containersEmpty isFinished isDone =>
      (isDone = true ∨ (isFinished && containersEmpty) = true) → s.mpeFinishCalled = true
  | returned isDone => isDone = true → s.mpeFinishCalled = true
  | _ => True

/-- The invariant of the two threads. -/
structure Inv (s : State M) : Prop where
  conserved : s.insertedRemote = s.handed ++ s.control.inHand ++ s.shuffler.toSend
  stored : s.shuffler.locallyFinished = true ↔ s.phase = .finished
  called : s.mpeFinishCalled = true →
    s.shuffler.locallyFinished = true ∧ s.control.inHand = [] ∧ s.shuffler.toSend = []
  extract : s.shuffler.canExtract = true → s.mpeFinishCalled = true
  knows : s.control.Knows s

theorem Inv.initial (cfg : Config) (rank : Rank) (m₀ : M) :
    Inv (State.initial cfg rank m₀) where
  conserved := rfl
  stored := by simp [State.initial, Shuffler.initial]
  called := fun h => nomatch h
  extract := fun h => nomatch h
  knows := trivial

/-- Once `finish` was called the containers are drained. -/
theorem Inv.drained (h : Inv s) (hcalled : s.mpeFinishCalled = true) : Drained s := by
  obtain ⟨-, hhand, hqueue⟩ := h.called hcalled
  refine ⟨hqueue, ?_, hcalled⟩
  rw [h.conserved, hhand, hqueue, List.append_nil, List.append_nil]

/-! ## The application thread -/

/-- A step of the application thread before its store of `locally_finished_`: it may append chunks
to the queue. -/
theorem Inv.insert (h : Inv s) {l : List Chunk} (hcontrol : s'.control = s.control)
    (hcalled : s'.mpeFinishCalled = s.mpeFinishCalled) (hhanded : s'.handed = s.handed)
    (hremote : s'.insertedRemote = s.insertedRemote ++ l)
    (hqueue : s'.shuffler.toSend = s.shuffler.toSend ++ l)
    (hlocal : s'.shuffler.locallyFinished = s.shuffler.locallyFinished)
    (hextract : s'.shuffler.canExtract = s.shuffler.canExtract)
    (hphase : s.phase ≠ .finished) (hphase' : s'.phase ≠ .finished) : Inv s' := by
  have hopen : s.shuffler.locallyFinished = false := by
    simpa using fun hl => hphase (h.stored.mp hl)
  have hopen' : s'.shuffler.locallyFinished = false := hlocal.trans hopen
  have hnot : s'.mpeFinishCalled = false := by
    refine Bool.eq_false_iff.mpr fun hc => ?_
    rw [hcalled] at hc
    exact Bool.false_ne_true (hopen ▸ (h.called hc).1)
  refine ⟨?_, ?_, ?_, ?_, ?_⟩
  · rw [hremote, hqueue, hhanded, hcontrol, h.conserved, List.append_assoc]
  · simp [hopen', hphase']
  · simp [hnot]
  · intro hc
    rw [hcalled]
    exact h.extract (hextract ▸ hc)
  · have hknows := h.knows
    rw [hcontrol]
    cases hc : s.control with
    | toSendEmpty => simp [hc, Control.Knows, hopen] at hknows
    | finish => simp [hc, Control.Knows, hopen] at hknows
    | isIdle => simp [Control.Knows, hopen']
    | toSendEmptyAgain => simp [Control.Knows, hopen']
    | loadLocallyFinishedAgain ce => simp [Control.Knows, hopen']
    | allFinished ce => simpa [hc, Control.Knows, hcalled] using hknows
    | loadActive ce fin => simpa [hc, Control.Knows, hcalled] using hknows
    | signal ce fin done => simpa [hc, Control.Knows, hcalled] using hknows
    | returned done => simpa [hc, Control.Knows, hcalled] using hknows
    | _ => trivial

/-- A step that changes only what the invariant does not read. -/
theorem Inv.quiet (h : Inv s) (hcontrol : s'.control = s.control)
    (hcalled : s'.mpeFinishCalled = s.mpeFinishCalled) (hhanded : s'.handed = s.handed)
    (hremote : s'.insertedRemote = s.insertedRemote)
    (hqueue : s'.shuffler.toSend = s.shuffler.toSend)
    (hlocal : s'.shuffler.locallyFinished = s.shuffler.locallyFinished)
    (hextract : s'.shuffler.canExtract = s.shuffler.canExtract)
    (hphase : s'.phase = s.phase) : Inv s' := by
  have hknows : Control.Knows s s.control ↔ Control.Knows s' s.control := by
    cases s.control <;> simp only [Control.Knows, hcalled, hqueue, hlocal]
  refine ⟨?_, ?_, ?_, ?_, ?_⟩
  · rw [hremote, hqueue, hhanded, hcontrol, h.conserved]
  · rw [hlocal, hphase, h.stored]
  · rw [hcalled, hlocal, hcontrol, hqueue]
    exact h.called
  · rw [hextract, hcalled]
    exact h.extract
  · rw [hcontrol]
    exact hknows.mp h.knows

/-- The store of `locally_finished_`. -/
theorem Inv.store (h : Inv s) (hphase : s.phase ≠ .finished)
    (hok : StoreOutsideWindow s (.finishDone : Label E)) :
    Inv { s with phase := .finished, shuffler := storeLocallyFinished s.shuffler } := by
  have hopen : s.shuffler.locallyFinished = false :=
    Bool.eq_false_iff.mpr fun hl => hphase (h.stored.mp hl)
  have hnot : s.mpeFinishCalled = false :=
    Bool.eq_false_iff.mpr fun hc => Bool.false_ne_true (hopen ▸ (h.called hc).1)
  refine ⟨h.conserved, ?_, ?_, h.extract, ?_⟩
  · exact iff_of_true rfl rfl
  · exact fun hc => absurd hc (by simp [hnot])
  · have hknows := h.knows
    show Control.Knows _ s.control
    cases hc : s.control with
    | toSendEmpty => rfl
    | finish => simp [hc, Control.Knows, hopen] at hknows
    | isIdle =>
        simp only [StoreOutsideWindow, hc] at hok
        exact fun _ hnil => absurd hnil hok
    | toSendEmptyAgain =>
        simp only [StoreOutsideWindow, hc] at hok
        exact fun _ hnil => absurd hnil hok
    | loadLocallyFinishedAgain ce =>
        simp only [StoreOutsideWindow, hc] at hok
        exact fun _ hce => absurd (hok.symm.trans hce) Bool.false_ne_true
    | allFinished ce => simpa [hc, Control.Knows] using hknows
    | loadActive ce fin => simpa [hc, Control.Knows] using hknows
    | signal ce fin done => simpa [hc, Control.Knows] using hknows
    | returned done => simpa [hc, Control.Knows] using hknows
    | _ => trivial

/-- What `insert(Chunk)` does to the members the progress thread decides on. -/
theorem insert_chunk_members {c : Chunk} {sh sh' : Shuffler}
    (h : insertChunk cfg rank c sh = .ok sh') :
    sh'.toSend = sh.toSend ++ (if cfg.partitionOwner c.partId = rank then [] else [c])
      ∧ sh'.locallyFinished = sh.locallyFinished ∧ sh'.canExtract = sh.canExtract := by
  obtain ⟨counter, hcount⟩ := count_outbound_eq (cfg.partitionOwner c.partId) c sh
  rcases insert_chunk_cases h with ⟨howner, hplace⟩ | ⟨howner, rfl⟩
  · rw [hcount] at hplace
    rw [if_pos howner, List.append_nil]
    rcases insert_into_received_cases hplace with ⟨-, reported, rfl⟩ | ⟨-, rfl⟩
    · exact ⟨rfl, rfl, rfl⟩
    · exact ⟨rfl, rfl, rfl⟩
  · rw [if_neg howner, hcount]
    exact ⟨rfl, rfl, rfl⟩

/-- The application thread called `insert(Chunk)`. -/
theorem Inv.log_insert (h : Inv s) {c : Chunk} {sh sh' : Shuffler}
    (hinsert : insertChunk cfg rank c sh = .ok sh')
    (hqueue : sh.toSend = s.shuffler.toSend)
    (hlocal : sh.locallyFinished = s.shuffler.locallyFinished)
    (hextract : sh.canExtract = s.shuffler.canExtract) {phase : Phase}
    (hphase : s.phase ≠ .finished) (hphase' : phase ≠ .finished) :
    Inv (State.logInsert cfg rank c sh' { s with phase := phase }) := by
  obtain ⟨hqueue', hlocal', hextract'⟩ := insert_chunk_members hinsert
  unfold State.logInsert
  split
  case isTrue howner =>
      refine h.insert (l := []) rfl rfl rfl (by simp) ?_ (hlocal'.trans hlocal)
        (hextract'.trans hextract) hphase hphase'
      simpa [howner, hqueue] using hqueue'
  case isFalse howner =>
      refine h.insert (l := [c]) rfl rfl rfl rfl ?_ (hlocal'.trans hlocal)
        (hextract'.trans hextract) hphase hphase'
      simpa [howner, hqueue] using hqueue'

/-! ## The progress thread -/

/-- `operator()` moves on and keeps what it holds. -/
theorem Inv.goto (h : Inv s) {control : Control} (hhand : control.inHand = s.control.inHand)
    (hknows : control.Knows s) : Inv { s with control := control } := by
  have hsame : control.Knows { s with control := control } := by
    cases control <;> exact hknows
  refine ⟨?_, h.stored, ?_, h.extract, hsame⟩
  · show s.insertedRemote = s.handed ++ control.inHand ++ s.shuffler.toSend
    rw [hhand, h.conserved]
  · show s.mpeFinishCalled = true → _ ∧ control.inHand = [] ∧ _
    rw [hhand]
    exact h.called

/-- The exchange changes. -/
theorem Inv.with_mpe (h : Inv s) (m : M) : Inv { s with mpe := m } :=
  h.quiet rfl rfl rfl rfl rfl rfl rfl rfl

/-- The finish counter and the boxes change. -/
theorem Inv.with_shuffler (h : Inv s) {sh : Shuffler} (hqueue : sh.toSend = s.shuffler.toSend)
    (hlocal : sh.locallyFinished = s.shuffler.locallyFinished)
    (hextract : sh.canExtract = s.shuffler.canExtract) : Inv { s with shuffler := sh } :=
  h.quiet rfl rfl rfl rfl hqueue hlocal hextract rfl

theorem insert_into_received_members {c : Chunk} {sh sh' : Shuffler}
    (h : insertIntoReceived c sh = .ok sh') : sh'.toSend = sh.toSend
      ∧ sh'.locallyFinished = sh.locallyFinished ∧ sh'.canExtract = sh.canExtract := by
  rcases insert_into_received_cases h with ⟨-, reported, rfl⟩ | ⟨-, rfl⟩
  · exact ⟨rfl, rfl, rfl⟩
  · exact ⟨rfl, rfl, rfl⟩

theorem add_finished_members {sh sh' : Shuffler} (h : addFinishedChunk sh = .ok sh') :
    sh'.toSend = sh.toSend ∧ sh'.locallyFinished = sh.locallyFinished
      ∧ sh'.canExtract = sh.canExtract := by
  obtain ⟨f, -, hsh⟩ := bind_eq_ok.mp h
  cases pure_eq_ok.mp hsh
  exact ⟨rfl, rfl, rfl⟩

/-- `extract_ready` takes chunks into the hand. -/
theorem Inv.extract_ready (h : Inv s) (hcontrol : s.control = .extractReady) (k : Nat) :
    Inv { s with
      shuffler := (extractReady k s.shuffler).2
      control := .send (extractReady k s.shuffler).1 } := by
  have hhand : s.control.inHand = [] := by rw [hcontrol]; rfl
  refine ⟨?_, h.stored, ?_, h.extract, trivial⟩
  · show s.insertedRemote = s.handed ++ s.shuffler.toSend.take k ++ s.shuffler.toSend.drop k
    rw [List.append_assoc, List.take_append_drop, h.conserved, hhand, List.append_nil]
  · intro hc
    obtain ⟨hlocal, -, hqueue⟩ := h.called hc
    exact ⟨hlocal, by simp [Control.inHand, extractReady, hqueue],
      by simp [extractReady, hqueue]⟩

/-- `mpe_->send()` takes the chunks over. -/
theorem Inv.send (h : Inv s) {chunks : List Chunk} (hcontrol : s.control = .send chunks) (m : M) :
    Inv { s with mpe := m, handed := s.handed ++ chunks, control := .progress } := by
  have hhand : s.control.inHand = chunks := by rw [hcontrol]; rfl
  refine ⟨?_, h.stored, ?_, h.extract, trivial⟩
  · show s.insertedRemote = s.handed ++ chunks ++ [] ++ s.shuffler.toSend
    rw [List.append_nil, h.conserved, hhand]
  · intro hc
    obtain ⟨hlocal, -, hqueue⟩ := h.called hc
    exact ⟨hlocal, rfl, hqueue⟩

/-- `mpe_->finish()`. -/
theorem Inv.finish (h : Inv s) (hcontrol : s.control = .finish) (m : M) :
    Inv { s with mpe := m, mpeFinishCalled := true, control := .isIdle } := by
  have hknows := h.knows
  rw [hcontrol] at hknows
  have hconserved := h.conserved
  rw [hcontrol] at hconserved
  exact ⟨hconserved, h.stored, fun _ => ⟨hknows.1, rfl, hknows.2⟩, fun _ => rfl,
    fun _ _ => rfl⟩

/-- Setting `can_extract_`. -/
theorem Inv.signal (h : Inv s) {containersEmpty isFinished isDone : Bool}
    (hcontrol : s.control = .signal containersEmpty isFinished isDone) :
    Inv { s with
      shuffler := { s.shuffler with
        canExtract := s.shuffler.canExtract || (isFinished && containersEmpty) }
      control := .returned isDone } := by
  have hknows := h.knows
  rw [hcontrol] at hknows
  have hconserved := h.conserved
  rw [hcontrol] at hconserved
  have hcalled := h.called
  rw [hcontrol] at hcalled
  refine ⟨hconserved, h.stored, hcalled, fun hc => ?_, fun hd => hknows (Or.inl hd)⟩
  rcases Bool.or_eq_true_iff.mp hc with hc | hc
  · exact h.extract hc
  · exact hknows (Or.inr hc)

/-- Every step of `operator()` keeps the invariant. -/
theorem thread_step_inv {ready : Nat} {memType : MemoryType} (h : Inv s)
    (hstep : threadStep mpe cfg rank ready memType s = .ok s') : Inv s' := by
  have hknows := h.knows
  unfold threadStep at hstep
  simp only at hstep
  split at hstep
  case h_1 hc =>
      cases pure_eq_ok.mp hstep
      exact h.extract_ready hc ready
  case h_2 chunks hc =>
      split at hstep
      case isTrue hnil =>
          cases pure_eq_ok.mp hstep
          refine h.goto ?_ trivial
          rw [hc]
          exact (List.isEmpty_iff.mp hnil).symm
      case isFalse =>
          split at hstep
          · cases hstep
          · obtain ⟨m, -, hs⟩ := bind_eq_ok.mp hstep
            cases pure_eq_ok.mp hs
            exact h.send hc m
  case h_3 => cases hstep
  case h_4 hc =>
      cases pure_eq_ok.mp hstep
      refine (h.with_mpe (mpe.recv s.mpe).2).goto ?_ ?_
      · show [] = s.control.inHand
        rw [hc]
        rfl
      · trivial
  case h_5 hc =>
      cases pure_eq_ok.mp hstep
      exact h.goto (by rw [hc]; rfl) trivial
  case h_6 message rest hc =>
      obtain ⟨c, -, hrest⟩ := bind_eq_ok.mp hstep
      obtain ⟨sh, hplace, hs⟩ := bind_eq_ok.mp hrest
      cases pure_eq_ok.mp hs
      obtain ⟨hqueue, hlocal, hextract⟩ := insert_into_received_members hplace
      exact (h.with_shuffler hqueue hlocal hextract).goto (by rw [hc]; rfl) trivial
  case h_7 rest hc =>
      obtain ⟨sh, hadd, hs⟩ := bind_eq_ok.mp hstep
      cases pure_eq_ok.mp hs
      obtain ⟨hqueue, hlocal, hextract⟩ := add_finished_members hadd
      exact (h.with_shuffler hqueue hlocal hextract).goto (by rw [hc]; rfl) trivial
  case h_8 hc =>
      cases pure_eq_ok.mp hstep
      split
      case isTrue hcond =>
          refine h.goto (by rw [hc]; rfl) ?_
          exact (Bool.and_eq_true_iff.mp hcond).2
      case isFalse hcond =>
          refine h.goto (by rw [hc]; rfl) fun hlocal _ => ?_
          simpa [hlocal] using hcond
  case h_9 hc =>
      cases pure_eq_ok.mp hstep
      rw [hc] at hknows
      split
      case isTrue hnil => exact h.goto (by rw [hc]; rfl) ⟨hknows, List.isEmpty_iff.mp hnil⟩
      case isFalse hcons =>
          exact h.goto (by rw [hc]; rfl) fun _ hnil => absurd (List.isEmpty_iff.mpr hnil) hcons
  case h_10 hc =>
      obtain ⟨m, -, hs⟩ := bind_eq_ok.mp hstep
      cases pure_eq_ok.mp hs
      exact h.finish hc m
  case h_11 hc =>
      cases pure_eq_ok.mp hstep
      rw [hc] at hknows
      split
      · exact h.goto (by rw [hc]; rfl) hknows
      · exact h.goto (by rw [hc]; rfl) fun _ hfalse => absurd hfalse Bool.false_ne_true
  case h_12 hc =>
      cases pure_eq_ok.mp hstep
      rw [hc] at hknows
      exact h.goto (by rw [hc]; rfl) fun hlocal hnil => hknows hlocal (List.isEmpty_iff.mp hnil)
  case h_13 containersEmpty hc =>
      cases pure_eq_ok.mp hstep
      rw [hc] at hknows
      split
      case isTrue hlocal => exact h.goto (by rw [hc]; rfl) (hknows hlocal)
      case isFalse =>
          exact h.goto (by rw [hc]; rfl) fun hfalse =>
            absurd (Bool.and_eq_true_iff.mp hfalse).1 Bool.false_ne_true
  case h_14 containersEmpty hc =>
      cases pure_eq_ok.mp hstep
      rw [hc] at hknows
      exact h.goto (by rw [hc]; rfl) fun hboth => hknows (Bool.and_eq_true_iff.mp hboth).2
  case h_15 containersEmpty isFinished hc =>
      cases pure_eq_ok.mp hstep
      rw [hc] at hknows
      refine h.goto (by rw [hc]; rfl) fun hdone => hknows ?_
      rcases hdone with hdone | hboth
      · rw [Bool.and_assoc] at hdone
        exact (Bool.and_eq_true_iff.mp hdone).2
      · exact hboth
  case h_16 containersEmpty isFinished isDone hc =>
      cases pure_eq_ok.mp hstep
      exact h.signal hc
  case h_17 => cases hstep
  case h_18 hc =>
      cases pure_eq_ok.mp hstep
      exact h.goto (by rw [hc]; rfl) trivial

/-- Every step keeps the invariant, if the store of `locally_finished_` keeps out of the
window. -/
theorem step_inv {l : Label E} (h : Inv s) (hok : StoreOutsideWindow s l)
    (hstep : step mpe cfg rank l s = .ok s') : Inv s' := by
  cases l with
  | insert pid d memType =>
      simp only [step] at hstep
      split at hstep
      · cases hstep
      case isFalse hphase =>
      split at hstep
      · cases hstep
      obtain ⟨sh, hinsert, hs⟩ := bind_eq_ok.mp hstep
      have hopen : s.phase ≠ .finished := by
        rw [not_not.mp hphase]
        exact nofun
      rcases insert_cases hinsert with ⟨hempty, rfl⟩ | ⟨hempty, hchunk⟩
      · rw [if_pos hempty, pure_eq_ok] at hs
        exact hs ▸ h
      · rw [if_neg (by simp [hempty]), pure_eq_ok] at hs
        exact hs ▸ h.log_insert hchunk rfl rfl rfl hopen hopen
  | startFinish =>
      simp only [step] at hstep
      split at hstep
      case isFalse => cases hstep
      case isTrue hphase =>
          cases pure_eq_ok.mp hstep
          exact h.insert (l := []) rfl rfl rfl (by simp) (by simp) rfl rfl
            (by rw [hphase]; exact nofun) nofun
  | finishFor =>
      simp only [step] at hstep
      split at hstep
      case h_2 => cases hstep
      case h_1 r hphase =>
      split at hstep
      case isFalse => cases hstep
      case isTrue =>
      obtain ⟨sh, hfinish, hs⟩ := bind_eq_ok.mp hstep
      have hopen : s.phase ≠ .finished := by
        rw [hphase]
        exact nofun
      rcases insert_finished_for_cases hfinish with ⟨hnone, rfl⟩ | ⟨hrep, -, hchunk⟩
      · rw [if_pos hnone, pure_eq_ok] at hs
        subst hs
        exact h.insert (l := []) rfl rfl rfl (by simp) (by simp) rfl rfl hopen nofun
      · rw [if_neg hrep.ne, pure_eq_ok] at hs
        exact hs ▸ h.log_insert hchunk rfl rfl rfl hopen nofun
  | finishDone =>
      simp only [step] at hstep
      split at hstep
      case isFalse => cases hstep
      case isTrue hphase =>
          cases pure_eq_ok.mp hstep
          exact h.store (by rw [hphase]; exact nofun) hok
  | addFinished =>
      simp only [step] at hstep
      split at hstep
      · cases hstep
      · obtain ⟨sh, hadd, hs⟩ := bind_eq_ok.mp hstep
        cases pure_eq_ok.mp hs
        obtain ⟨hqueue, hlocal, hextract⟩ := add_finished_members hadd
        exact h.quiet rfl rfl rfl rfl hqueue hlocal hextract rfl
  | shutdown =>
      simp only [step] at hstep
      split at hstep
      case isFalse => cases hstep
      case isTrue =>
          cases pure_eq_ok.mp hstep
          exact h.quiet rfl rfl rfl rfl rfl rfl rfl rfl
  | communicate env =>
      simp only [step] at hstep
      split at hstep
      case h_2 => cases hstep
      case h_1 hc =>
          obtain ⟨m, -, hs⟩ := bind_eq_ok.mp hstep
          cases pure_eq_ok.mp hs
          exact (h.with_mpe m).goto (by rw [hc]; rfl) trivial
  | thread ready memType => exact thread_step_inv h hstep

/-- In every run in which the store of `locally_finished_` keeps out of the window, completion is
signalled only when everything was sent. -/
theorem drained_when_signalled (mpe : Mpe M E) (cfg : Config) (rank : Rank) (m₀ : M) (s : State M)
    (h : (system mpe cfg rank m₀).Reach StoreOutsideWindow s)
    (hsignal : s.shuffler.canExtract = true ∨ s.control = .returned true) : Drained s := by
  have hinv : Inv s := by
    refine h.invariant ?_ ?_
    · rintro s rfl
      exact .initial cfg rank m₀
    · intro s l s' hinv hok hstep
      exact step_inv hinv hok hstep
  rcases hsignal with hextract | hreturned
  · exact hinv.drained (hinv.extract hextract)
  · have hknows := hinv.knows
    rw [hreturned] at hknows
    exact hinv.drained (hknows rfl)

/-! ## Over the tag-based exchange -/

/-- A message arrives from another rank. -/
inductive Arrival where
  | metadata (src : Rank) (msg : Bytes)
  | gpuData (src : Rank) (data : Buffer)

/-- The channels after the arrival. -/
def Arrival.apply (i : Exchange.Instance) (comm : Exchange.Comm) : Arrival → Exchange.Comm
  | metadata src msg => comm.sendMetadata { i with rank := src } i.rank msg
  | gpuData src data => comm.sendData { i with rank := src } i.rank data

/-- The `TagMetadataPayloadExchange` a shuffler uses by default. -/
def tagMpe (i : Exchange.Instance) :
    Mpe Exchange.State (Exchange.Env i.nranks × List Arrival) where
  send := Exchange.send i
  progress := fun env s => Exchange.progress i env.1 (s.1, env.2.foldl (Arrival.apply i) s.2)
  recv := fun s => ((Exchange.recv s.1).1, (Exchange.recv s.1).2, s.2)
  finish := Exchange.finish i
  isIdle := fun s => Exchange.isIdle i s.1

/-- Whether the step is the store of `locally_finished_`. -/
def Label.isStore : Label E → Bool
  | finishDone => true
  | _ => false

/-- Steps without the store. -/
theorem run_reach {ls : List (Label E)}
    (hs : (system mpe cfg rank m₀).Reach StoreOutsideWindow s)
    (hls : ls.all (fun l => !l.isStore) = true) (hrun : run (step mpe cfg rank) ls s = .ok s') :
    (system mpe cfg rank m₀).Reach StoreOutsideWindow s' := by
  refine System.Reach.run hs (fun l hl s₁ s₂ hstep => ⟨?_, hstep⟩) hrun
  have hnot := List.all_eq_true.mp hls l hl
  cases l with
  | finishDone => cases hnot
  | _ => trivial

/-- Two ranks, and one partition that rank 1 owns. -/
def otherPartition : Config := .ofOwner 1 Nat.one_lt_two

/-- Packed data of one byte of metadata. -/
def hostByte : PackedData := ⟨[1], .empty .host⟩

/-- A `progress` call in which all sends complete. -/
def quietEnv : Exchange.Env 2 where
  arrived := fun _ => 1
  alloc := fun _ _ _ => none
  writeDone := fun _ => false
  now := 0
  incomingOrder := [0, 1]
  reported := []
  transitOrder := [0, 1]
  movedToDisk := fun _ => false
  sendsCompleted := 8
  incoming_perm := Exchange.zero_one_perm
  transit_perm := Exchange.zero_one_perm

/-- The exchange of rank 0 and the channels, before any call. -/
def exchangeZero : Exchange.State := (.initial, ⟨fun _ => .empty, fun _ => .empty⟩)

/-- A number of steps of `operator()`, all chunks being ready. -/
def threads (n : Nat) : List (Label (Exchange.Env 2 × List Arrival)) :=
  List.replicate n (.thread 8 .host)

theorem drained_when_signalled_two : ∃ s : State Exchange.State,
    (system (tagMpe ⟨2, 0, 0, 0⟩) otherPartition 0 exchangeZero).Reach StoreOutsideWindow s
      ∧ s.shuffler.canExtract = true ∧ s.insertedRemote.length = 2 ∧ Drained s := by
  obtain ⟨s₁, s₂, s, hrun₁, hstore, hrun₂, hcontrol, hextract, hlength⟩ : ∃ s₁ s₂ s,
      run (step (tagMpe ⟨2, 0, 0, 0⟩) otherPartition 0)
        [.insert 0 hostByte .host, .startFinish, .finishFor, .finishFor]
        (.initial otherPartition 0 exchangeZero) = .ok s₁
      ∧ step (tagMpe ⟨2, 0, 0, 0⟩) otherPartition 0 .finishDone s₁ = .ok s₂
      ∧ run (step (tagMpe ⟨2, 0, 0, 0⟩) otherPartition 0) (threads 2
        ++ [.communicate (quietEnv, [.metadata 1 (Exchange.terminationMarker 0)])] ++ threads 13
        ++ [.communicate (quietEnv, [])] ++ threads 9) s₂ = .ok s
      ∧ s₁.control = .extractReady ∧ s.shuffler.canExtract = true
      ∧ s.insertedRemote.length = 2 :=
    ⟨_, _, _, rfl, rfl, rfl, rfl, by decide +kernel, by decide +kernel⟩
  have hreach₁ : (system (tagMpe ⟨2, 0, 0, 0⟩) otherPartition 0 exchangeZero).Reach
      StoreOutsideWindow s₁ := run_reach (.init rfl) rfl hrun₁
  have hok : StoreOutsideWindow s₁
      (.finishDone : Label (Exchange.Env 2 × List Arrival)) := by
    simp [StoreOutsideWindow, hcontrol]
  have hreach := run_reach (.step hreach₁ hok hstore) rfl hrun₂
  exact ⟨s, hreach, hextract, hlength,
    drained_when_signalled _ otherPartition 0 exchangeZero s hreach (Or.inl hextract)⟩

/-- A rank that owns no partition signals its completion and returns `Done`, with its chunks still
queued and without telling the exchange that it has finished. -/
theorem signalled_too_early : ∃ s : State Exchange.State,
    (system (tagMpe ⟨2, 0, 0, 0⟩) otherPartition 0 exchangeZero).Reachable s
      ∧ s.shuffler.canExtract = true ∧ s.control = .returned true
      ∧ s.shuffler.toSend.length = 2 ∧ s.handed = [] ∧ s.mpeFinishCalled = false := by
  obtain ⟨s, hrun, hs⟩ : ∃ s, run (step (tagMpe ⟨2, 0, 0, 0⟩) otherPartition 0)
      (threads 2 ++ [.communicate (quietEnv, [])] ++ threads 5
        ++ [.insert 0 hostByte .host, .startFinish, .finishFor, .finishFor, .finishDone, .shutdown]
        ++ threads 4) (.initial otherPartition 0 exchangeZero) = .ok s
      ∧ s.shuffler.canExtract = true ∧ s.control = .returned true
      ∧ s.shuffler.toSend.length = 2 ∧ s.handed = [] ∧ s.mpeFinishCalled = false :=
    ⟨_, rfl, rfl, rfl, rfl, rfl, rfl⟩
  exact ⟨s, System.Reach.run (.init rfl) (fun _ _ _ _ hstep => ⟨trivial, hstep⟩) hrun, hs⟩

end Rapidsmpf.Shuffle.Signal
