import Mathlib
import Rapidsmpf.Coll.Chunk
import Rapidsmpf.Lib.Positions
import Rapidsmpf.Lib.Transition

/-!
# Completed transfers

`test_some` of `coll/utils.cpp` with the `test_some` and `release_data` of the communicators it
calls, `communicator/mpi.cpp` and `communicator/ucxx.cpp`. The chunks and the futures of posted
transfers are in two vectors that correspond position by position. The communicator takes the
completed futures out of one and tells their positions, and `test_some` takes the chunks out of
the other.

Buffers and chunks have their addresses here, so that a chunk can be seen to get its own buffer.
`completions_paired` says so of every call and of all calls of a run.
-/

namespace Rapidsmpf.Coll.TestSome

open Fallible Positions Protocol

/-! ## The code -/

/-- An object that is owned through a pointer. -/
structure Ptr (α : Type) where
  address : Nat
  object : α
deriving DecidableEq

/-- `detail::Chunk` with the pointer to its data buffer. -/
structure Chunk where
  id : Nat
  destination : Option Rank
  metadata : Option Bytes
  data : Option (Ptr Buffer)
  dataSize : Nat
deriving DecidableEq

/-- `attach_data_buffer`. -/
def Chunk.attachDataBuffer (data : Ptr Buffer) (c : Chunk) : Except String Chunk :=
  if data.object.size ≠ c.dataSize then throw "Mismatching data size"
  else if c.data.isSome then throw "Chunk already has data"
  else pure { c with data := some data }

/-- A `Communicator::Future`. `own` is what the `dynamic_cast` of the communicator finds. -/
structure Future where
  own : Bool
  dataBuffer : Option (Ptr Buffer)

/-- What a communicator finds out about the requests. -/
inductive Report where
  /-- `MPI_Testsome` fails, has no active handle, or tells the completed requests. -/
  | mpi (answer : Except String (Option (List Nat)))
  /-- `isCompleted` and `checkError` of the request at each position. -/
  | ucxx (isCompleted : Nat → Bool) (checkError : Nat → Option String)

namespace Report

/-- The exception for a future that is not one of the communicator. -/
def wrongFuture : Report → String
  | mpi _ => "future isn't a MPI::Future"
  | ucxx _ _ => "future isn't a UCXX::Future"

/-- `release_data`. -/
def releaseData (report : Report) (future : Future) : Except String (Ptr Buffer) :=
  if future.own = false then throw report.wrongFuture
  else
    match future.dataBuffer with
    | none => throw "future has no data"
    | some data => pure data

end Report

/-- A `dynamic_cast` to the future type of the communicator that succeeds. -/
def isOwn : Option Future → Bool
  | some future => future.own
  | none => false

/-- `MPI::test_some`: the completed futures, their positions and the futures that are left. -/
def mpiTestSome (answer : Except String (Option (List Nat))) (futures : List (Option Future)) :
    Except String (List (Option Future) × List Nat × List (Option Future)) :=
  if futures.isEmpty then pure ([], [], futures)
  else if ¬ futures.all isOwn then throw "future isn't a MPI::Future"
  else do
    let some indices ← answer | throw "Expected at least one active handle."
    if indices.isEmpty then pure ([], [], futures)
    else
      let (completed, rest) := moveOut indices futures
      pure (completed, indices, eraseNull rest)

/-- The loop of `UCXX::test_some`, which stops at the first future that is not completed. -/
def ucxxIndices (isCompleted : Nat → Bool) (checkError : Nat → Option String) :
    Nat → List (Option Future) → Except String (List Nat)
  | _, [] => pure []
  | i, future :: futures =>
      if ¬ isOwn future then throw "future isn't a UCXX::Future"
      else if isCompleted i then
        match checkError i with
        | some error => throw error
        | none => do
            let indices ← ucxxIndices isCompleted checkError (i + 1) futures
            pure (i :: indices)
      else pure []

/-- `UCXX::test_some`. -/
def ucxxTestSome (isCompleted : Nat → Bool) (checkError : Nat → Option String)
    (futures : List (Option Future)) :
    Except String (List (Option Future) × List Nat × List (Option Future)) :=
  if futures.isEmpty then pure ([], [], futures)
  else do
    let indices ← ucxxIndices isCompleted checkError 0 futures
    if indices.isEmpty then pure ([], [], futures)
    else
      let (completed, rest) := moveOut indices futures
      pure (completed, indices, eraseNull rest)

/-- `test_some` of the communicator. -/
def Report.testSome (futures : List (Option Future)) :
    Report → Except String (List (Option Future) × List Nat × List (Option Future))
  | .mpi answer => mpiTestSome answer futures
  | .ucxx isCompleted checkError => ucxxTestSome isCompleted checkError futures

/-- The transformation of the completed futures, with the chunks that it leaves. A null pointer is
not dereferenced by any call; it would have no meaning in C++. -/
def attachAll (report : Report) : List Nat → List (Option Future) → List (Option (Ptr Chunk)) →
    Except String (List (Ptr Chunk) × List (Option (Ptr Chunk)))
  | i :: indices, future :: futures, chunks =>
      match chunks[i]?.join, future with
      | some chunk, some future => do
          let data ← report.releaseData future
          let object ← chunk.object.attachDataBuffer data
          let (result, rest) ← attachAll report indices futures (chunks.set i none)
          pure (⟨chunk.address, object⟩ :: result, rest)
      | _, _ => throw "null pointer"
  | _, _, chunks => pure ([], chunks)

/-- `detail::test_some`: the completed chunks, and the chunks and futures that are left. -/
def testSome (report : Report) (chunks : List (Option (Ptr Chunk)))
    (futures : List (Option Future)) :
    Except String (List (Ptr Chunk) × List (Option (Ptr Chunk)) × List (Option Future)) :=
  if chunks.length ≠ futures.length then throw "Mismatching size for chunks and futures"
  else if chunks.isEmpty then pure ([], chunks, futures)
  else do
    let (completed, indices, futures) ← report.testSome futures
    let (result, chunks) ← attachAll report indices completed chunks
    pure (result, eraseNull chunks, futures)

/-- The chunk without addresses. -/
def Chunk.value (c : Chunk) : Coll.Chunk :=
  ⟨c.id, c.destination, c.metadata, c.data.map Ptr.object, c.dataSize⟩

/-- Without addresses, it is the `attach_data_buffer` of a chunk. -/
theorem attach_value (data : Ptr Buffer) (c : Chunk) :
    (c.attachDataBuffer data).map Chunk.value = c.value.attachDataBuffer data.object := by
  rw [Chunk.attachDataBuffer, Coll.Chunk.attachDataBuffer]
  have hsome : c.value.data.isSome = c.data.isSome := Option.isSome_map
  have hfield : c.value.dataSize = c.dataSize := rfl
  rw [hsome, hfield]
  by_cases hsize : data.object.size ≠ c.dataSize
  · rw [if_pos hsize, if_pos hsize]
    rfl
  · rw [if_neg hsize, if_neg hsize]
    split <;> rfl

/-! ## Posted transfers -/

/-- A chunk and the buffer that it has released for the transfer. -/
structure Posting where
  chunk : Ptr Chunk
  buffer : Ptr Buffer
  released : chunk.object.data = none
  size : buffer.object.size = chunk.object.dataSize

namespace Posting

/-- The future of the transfer. -/
def future (p : Posting) : Future := ⟨true, some p.buffer⟩

/-- The chunk with its own buffer. -/
def attached (p : Posting) : Ptr Chunk :=
  ⟨p.chunk.address, { p.chunk.object with data := some p.buffer }⟩

/-- The transfer writes to the buffer. -/
def receive (p : Posting) (content : Buffer) (h : content.size = p.buffer.object.size) : Posting :=
  ⟨p.chunk, ⟨p.buffer.address, content⟩, p.released, h.trans p.size⟩

end Posting

/-- The vector of the chunks. -/
def chunksOf (ps : List Posting) : List (Option (Ptr Chunk)) := ps.map fun p => some p.chunk

/-- The vector of the futures. -/
def futuresOf (ps : List Posting) : List (Option Future) := ps.map fun p => some p.future

/-- The positions that a communicator may report for `n` futures: distinct ones in any order, or
those in front of the first future that is not completed. -/
inductive Reports (n : Nat) : Report → List Nat → Prop where
  | mpi {indices : List Nat} : indices.Nodup → (∀ i ∈ indices, i < n) →
      Reports n (.mpi (.ok (some indices))) indices
  | ucxx {isCompleted : Nat → Bool} {checkError : Nat → Option String} {k : Nat} : k ≤ n →
      (∀ i < k, isCompleted i = true ∧ checkError i = none) → (k < n → isCompleted k = false) →
      Reports n (.ucxx isCompleted checkError) (List.range k)

/-! ## One call -/

section Call

variable {ps : List Posting} {report : Report} {is : List Nat}

theorem Posting.release_data (p : Posting) : report.releaseData p.future = .ok p.buffer := rfl

theorem Posting.attach (p : Posting) :
    p.chunk.object.attachDataBuffer p.buffer = .ok p.attached.object := by
  have hnone : ¬ p.chunk.object.data.isSome = true := by
    rw [p.released]
    exact Bool.false_ne_true
  rw [Chunk.attachDataBuffer, if_neg (not_not.mpr p.size), if_neg hnone]
  rfl

theorem futures_own : (futuresOf ps).all isOwn = true := by
  rw [futuresOf, List.all_map]
  exact List.all_eq_true.mpr fun p _ => rfl

/-- The loop collects the positions in front of the first future that is not completed. -/
theorem ucxx_indices_eq {isCompleted : Nat → Bool} {checkError : Nat → Option String} {i k : Nat}
    (hk : k ≤ ps.length)
    (hdone : ∀ j, i ≤ j → j < i + k → isCompleted j = true ∧ checkError j = none)
    (hstop : k < ps.length → isCompleted (i + k) = false) :
    ucxxIndices isCompleted checkError i (futuresOf ps) = .ok (List.range' i k) := by
  induction ps generalizing i k with
  | nil =>
      obtain rfl : k = 0 := Nat.le_zero.mp hk
      rfl
  | cons p ps ih =>
      show ucxxIndices isCompleted checkError i (some p.future :: futuresOf ps) = _
      have hown : isOwn (some p.future) = true := rfl
      rw [ucxxIndices, if_neg (not_not.mpr hown)]
      cases k with
      | zero =>
          have hfirst : isCompleted i = false := hstop (Nat.succ_pos _)
          rw [hfirst]
          rfl
      | succ k =>
          obtain ⟨hcompleted, hcheck⟩ := hdone i (Nat.le_refl i) (by omega)
          have hrest : ucxxIndices isCompleted checkError (i + 1) (futuresOf ps) =
              .ok (List.range' (i + 1) k) := by
            refine ih (Nat.le_of_succ_le_succ hk) (fun j hj hlt => ?_) fun hlt => ?_
            · exact hdone j (by omega) (by omega)
            · rw [Nat.add_right_comm]
              exact hstop (Nat.succ_lt_succ hlt)
          rw [if_pos hcompleted, hcheck, hrest]
          rfl

/-- The end of both `test_some`: the completed futures are moved out and the others are left. -/
theorem take_completed (hnodup : is.Nodup) (hlt : ∀ i ∈ is, i < ps.length) :
    (if is.isEmpty then pure ([], [], futuresOf ps)
      else
        let (completed, rest) := moveOut is (futuresOf ps)
        pure (completed, is, eraseNull rest) :
      Except String (List (Option Future) × List Nat × List (Option Future))) =
      .ok ((select ps is).map fun p => some p.future, is, futuresOf (others ps is)) := by
  have hfutures : futuresOf ps = (ps.map Posting.future).map some := by
    rw [List.map_map]
    rfl
  have hlength : ∀ i ∈ is, i < (ps.map Posting.future).length := by
    rwa [List.length_map]
  obtain ⟨hmoved, hleft⟩ := move_out_some hnodup hlength
  cases is with
  | nil =>
      rw [others_nil]
      rfl
  | cons i is =>
      show Except.ok ((moveOut (i :: is) (futuresOf ps)).1, i :: is,
        eraseNull (moveOut (i :: is) (futuresOf ps)).2) = _
      rw [hfutures, hmoved, hleft, select_map, others_map, List.map_map, List.map_map]
      rfl

/-- The positions that are reported are distinct and in the list. -/
theorem Reports.positions {n : Nat} (h : Reports n report is) : is.Nodup ∧ ∀ i ∈ is, i < n := by
  cases h with
  | mpi hnodup hlt => exact ⟨hnodup, hlt⟩
  | ucxx hk hdone hstop =>
      exact ⟨List.nodup_range, fun i hi => Nat.lt_of_lt_of_le (List.mem_range.mp hi) hk⟩

/-- The communicator hands out the completed futures and keeps the others in their order. -/
theorem comm_test_some (hne : ps ≠ []) (h : Reports ps.length report is) :
    report.testSome (futuresOf ps) =
      .ok ((select ps is).map fun p => some p.future, is, futuresOf (others ps is)) := by
  obtain ⟨hnodup, hlt⟩ := h.positions
  have hfull : ¬ (futuresOf ps).isEmpty = true := by
    rw [futuresOf, List.isEmpty_iff, List.map_eq_nil_iff]
    exact hne
  cases h with
  | mpi =>
      show mpiTestSome (.ok (some is)) (futuresOf ps) = _
      rw [mpiTestSome, if_neg hfull, if_neg (not_not.mpr futures_own)]
      exact take_completed hnodup hlt
  | @ucxx isCompleted checkError k hk hdone hstop =>
      have hindices : ucxxIndices isCompleted checkError 0 (futuresOf ps) =
          .ok (List.range k) := by
        rw [List.range_eq_range']
        refine ucxx_indices_eq hk (fun j _ hj => hdone j ?_) ?_
        · rwa [Nat.zero_add] at hj
        · rwa [Nat.zero_add]
      show ucxxTestSome isCompleted checkError (futuresOf ps) = _
      rw [ucxxTestSome, if_neg hfull, hindices]
      exact take_completed hnodup hlt

/-- Each future meets the chunk that it was posted with. -/
theorem attach_all_eq {chunks : List (Option (Ptr Chunk))} (hnodup : is.Nodup)
    (hlt : ∀ i ∈ is, i < ps.length) (hchunks : ∀ i ∈ is, chunks[i]? = (chunksOf ps)[i]?) :
    attachAll report is ((select ps is).map fun p => some p.future) chunks =
      .ok ((select ps is).map Posting.attached, clear is chunks) := by
  induction is generalizing chunks with
  | nil => rfl
  | cons i is ih =>
      obtain ⟨hi, hlt⟩ := List.forall_mem_cons.mp hlt
      obtain ⟨hfirst, hchunks⟩ := List.forall_mem_cons.mp hchunks
      obtain ⟨hnotin, hnodup⟩ := List.nodup_cons.mp hnodup
      have hchunk : chunks[i]?.join = some ps[i].chunk := by
        rw [hfirst, chunksOf, List.getElem?_map, List.getElem?_eq_getElem hi]
        rfl
      -- the slot that is emptied is none of the later ones
      have hrest : ∀ j ∈ is, (chunks.set i none)[j]? = (chunksOf ps)[j]? := by
        intro j hj
        have hne : i ≠ j := by
          intro heq
          exact hnotin (heq ▸ hj)
        rw [List.getElem?_set_ne hne]
        exact hchunks j hj
      rw [select_cons hi, List.map_cons]
      simp only [attachAll, hchunk]
      refine bind_eq_ok.mpr ⟨ps[i].buffer, ps[i].release_data, ?_⟩
      refine bind_eq_ok.mpr ⟨ps[i].attached.object, ps[i].attach, ?_⟩
      exact bind_eq_ok.mpr ⟨_, ih hnodup hlt hrest, rfl⟩

/-- `test_some` returns the chunks of the completed transfers with their own buffers, and leaves
the chunks and the futures of the other transfers in their order. -/
theorem test_some_eq (h : Reports ps.length report is) :
    testSome report (chunksOf ps) (futuresOf ps) =
      .ok ((select ps is).map Posting.attached, chunksOf (others ps is),
        futuresOf (others ps is)) := by
  obtain ⟨hnodup, hlt⟩ := h.positions
  have hlength : (chunksOf ps).length = (futuresOf ps).length := by
    rw [chunksOf, futuresOf, List.length_map, List.length_map]
  rw [testSome, if_neg (not_not.mpr hlength)]
  by_cases hne : ps = []
  · subst hne
    have hempty : is = [] :=
      List.eq_nil_iff_forall_not_mem.mpr fun i hi => Nat.not_lt_zero i (hlt i hi)
    subst hempty
    rfl
  · have hfull : ¬ (chunksOf ps).isEmpty = true := by
      rw [chunksOf, List.isEmpty_iff, List.map_eq_nil_iff]
      exact hne
    rw [if_neg hfull]
    refine bind_eq_ok.mpr ⟨_, comm_test_some hne h, ?_⟩
    refine bind_eq_ok.mpr ⟨_, attach_all_eq hnodup hlt fun i _ => rfl, ?_⟩
    have hchunks : eraseNull (clear is (chunksOf ps)) = chunksOf (others ps is) := by
      have hslots : chunksOf ps = (ps.map Posting.chunk).map some := by
        rw [List.map_map]
        rfl
      rw [hslots, erase_cleared, others_map, List.map_map]
      rfl
    show Except.ok (_, eraseNull (clear is (chunksOf ps)), futuresOf (others ps is)) = _
    rw [hchunks]

end Call

/-! ## Runs -/

/-- The chunk apart from what its buffer contains: the chunk without its buffer, and where the
buffer is. -/
def identity (c : Ptr Chunk) : Ptr Chunk × Option Nat :=
  (⟨c.address, { c.object with data := none }⟩, c.object.data.map Ptr.address)

/-- The buffer of a chunk has the size that the chunk announces. -/
def Sized (c : Coll.Chunk) : Prop := ∀ b ∈ c.data, b.size = c.dataSize

/-- The members of a collective that post transfers and complete them: `sent_posted_` with
`sent_futures_`, or `receive_posted_` with `receive_futures_`. `posted` and `returned` keep what
was ever posted and returned. -/
structure State where
  chunks : List (Option (Ptr Chunk))
  futures : List (Option Future)
  posted : List (Ptr Chunk)
  returned : List (Ptr Chunk)

/-- What may happen next. -/
inductive Label where
  | post (chunk : Ptr Chunk)
  | receive (i : Nat) (content : Buffer)
  | call (report : Report)

/-- One step. A call that throws ends the run. -/
inductive Step (s : State) : Label → State → Prop where
  /-- The chunk releases its buffer to the transfer. -/
  | post {c : Ptr Chunk} {b : Ptr Buffer} : Sized c.object.value → c.object.data = some b →
      Step s (.post c) { s with
        chunks := s.chunks ++ [some ⟨c.address, { c.object with data := none }⟩]
        futures := s.futures ++ [some ⟨true, some b⟩]
        posted := s.posted ++ [c] }
  /-- The transfer writes to its buffer. -/
  | receive {i : Nat} {content : Buffer} {b : Ptr Buffer} :
      s.futures[i]? = some (some ⟨true, some b⟩) → content.size = b.object.size →
      Step s (.receive i content) { s with
        futures := s.futures.set i (some ⟨true, some ⟨b.address, content⟩⟩) }
  /-- `test_some` is called and returns. -/
  | call {report : Report} {is : List Nat} {result : List (Ptr Chunk)}
      {chunks : List (Option (Ptr Chunk))} {futures : List (Option Future)} :
      Reports s.futures.length report is →
      testSome report s.chunks s.futures = .ok (result, chunks, futures) →
      Step s (.call report) { s with
        chunks := chunks
        futures := futures
        returned := s.returned ++ result }

/-- All runs of a pair of lists. -/
def system : System State Label where
  init s := s = ⟨[], [], [], []⟩
  step := Step

/-- The lists correspond, and what was posted was returned as it was or is in them. -/
def Kept (s : State) : Prop :=
  ∃ ps : List Posting, s.chunks = chunksOf ps ∧ s.futures = futuresOf ps ∧
    (s.posted.map identity).Perm
      (s.returned.map identity ++ ps.map fun p => identity p.attached)

/-- The chunks that `from_packed_data` makes are as large as they announce. -/
theorem from_packed_data_sized (sequence origin : Nat) (destination : Option Rank)
    (d : Shuffle.PackedData) :
    Sized (Coll.Chunk.fromPackedData sequence origin destination d) := by
  intro b hb
  obtain rfl : d.data = b := Option.some.inj hb
  rfl

/-- So are those that `deserialize` makes. -/
theorem deserialize_sized (msg : Bytes) (memType : MemoryType) :
    Sized (Coll.Chunk.deserialize msg memType) := by
  intro b hb
  rw [Coll.Chunk.deserialize] at hb ⊢
  split at hb
  · cases hb
  · rename_i hlength
    cases hb
    rw [if_neg hlength]
    exact List.length_replicate

/-- A buffer is only attached when it has the size. -/
theorem attach_sized {b : Buffer} {c c' : Coll.Chunk} (h : c.attachDataBuffer b = .ok c') :
    Sized c' := by
  rw [Coll.Chunk.attachDataBuffer] at h
  split at h
  · cases h
  · rename_i hsize
    split at h
    · cases h
    · cases h
      intro b' hb'
      obtain rfl : b = b' := Option.some.inj hb'
      exact not_not.mp hsize

section Run

variable {s s' : State} {l : Label}

/-- A chunk and the buffer that it releases are a posting. -/
theorem exists_posting {c : Ptr Chunk} {b : Ptr Buffer} (hsized : Sized c.object.value)
    (hb : c.object.data = some b) :
    ∃ p : Posting, p.chunk = ⟨c.address, { c.object with data := none }⟩ ∧ p.buffer = b ∧
      identity p.attached = identity c := by
  have hsize : b.object.size = c.object.dataSize := by
    refine hsized b.object ?_
    show c.object.data.map Ptr.object = some b.object
    rw [hb]
    rfl
  refine ⟨⟨⟨c.address, { c.object with data := none }⟩, b, rfl, hsize⟩, rfl, rfl, ?_⟩
  rw [identity, identity, hb]
  rfl

/-- Writing to the buffer of a posting changes neither its chunk nor where the buffer is. -/
theorem map_receive {β : Type} {f : Posting → β} {ps : List Posting} {i : Nat} {p : Posting}
    {content : Buffer} {h : content.size = p.buffer.object.size} (hp : ps[i]? = some p)
    (hf : f (p.receive content h) = f p) :
    (ps.set i (p.receive content h)).map f = ps.map f := by
  obtain ⟨hi, hget⟩ := List.getElem?_eq_some_iff.mp hp
  calc (ps.set i (p.receive content h)).map f = (ps.map f).set i (f p) := by
        rw [List.map_set, hf]
    _ = (ps.set i ps[i]).map f := by rw [List.map_set, hget]
    _ = ps.map f := by rw [List.set_getElem_self]

theorem kept_step (hkept : Kept s) (h : Step s l s') : Kept s' := by
  obtain ⟨ps, hchunks, hfutures, hperm⟩ := hkept
  cases h with
  | @post c b hsized hb =>
      obtain ⟨p, hchunk, hbuffer, hsame⟩ := exists_posting hsized hb
      refine ⟨ps ++ [p], ?_, ?_, ?_⟩
      · rw [chunksOf, List.map_append, ← chunksOf, hchunks, ← hchunk]
        rfl
      · rw [futuresOf, List.map_append, ← futuresOf, hfutures, ← hbuffer]
        rfl
      · show ((s.posted ++ [c]).map identity).Perm _
        rw [List.map_append, List.map_append, ← List.append_assoc, List.map_singleton,
          List.map_singleton, hsame]
        exact hperm.append_right _
  | @receive i content b hfuture hsize =>
      rw [hfutures, futuresOf, List.getElem?_map] at hfuture
      obtain ⟨p, hp, hpb⟩ := Option.map_eq_some_iff.mp hfuture
      obtain rfl : p.buffer = b :=
        Option.some.inj (congrArg Future.dataBuffer (Option.some.inj hpb))
      refine ⟨ps.set i (p.receive content hsize), ?_, ?_, ?_⟩
      · refine hchunks.trans (Eq.symm (map_receive hp ?_))
        rfl
      · rw [futuresOf, List.map_set, ← futuresOf, hfutures]
        rfl
      · have hsame : (ps.set i (p.receive content hsize)).map (fun p => identity p.attached) =
            ps.map fun p => identity p.attached := by
          refine map_receive hp ?_
          rfl
        rw [hsame]
        exact hperm
  | @call report is result chunks futures hreports hcall =>
      have hlength : s.futures.length = ps.length := by
        rw [hfutures, futuresOf, List.length_map]
      rw [hlength] at hreports
      rw [hchunks, hfutures, test_some_eq hreports] at hcall
      cases hcall
      refine ⟨others ps is, rfl, rfl, ?_⟩
      obtain ⟨hnodup, hlt⟩ := hreports.positions
      have hsplit := (select_append_others_perm hnodup hlt).symm.map fun p => identity p.attached
      rw [List.map_append] at hsplit
      show (s.posted.map identity).Perm
        ((s.returned ++ (select ps is).map Posting.attached).map identity ++ _)
      rw [List.map_append, List.map_map, List.append_assoc]
      exact hperm.trans (hsplit.append_left _)

theorem kept_reachable (h : system.Reachable s) : Kept s := by
  refine h.invariant (fun s hs => ?_) fun s l s' hs hstep => kept_step hs hstep
  subst hs
  exact ⟨[], rfl, rfl, .refl _⟩

/-- The chunk of a completed transfer is as large as it announces. -/
theorem Posting.attached_sized (p : Posting) : Sized p.attached.object.value := by
  have hvalue := attach_value p.buffer p.chunk.object
  rw [p.attach] at hvalue
  exact attach_sized hvalue.symm

/-- So is every chunk that a run returns: it may be posted again. -/
theorem returned_sized (h : system.Reachable s) : ∀ c ∈ s.returned, Sized c.object.value := by
  have hboth : Kept s ∧ ∀ c ∈ s.returned, Sized c.object.value := by
    refine h.invariant (I := fun s => Kept s ∧ ∀ c ∈ s.returned, Sized c.object.value)
      (fun s hs => ?_) fun s l s' hs hstep => ⟨kept_step hs.1 hstep, ?_⟩
    · subst hs
      exact ⟨⟨[], rfl, rfl, .refl _⟩, nofun⟩
    · obtain ⟨⟨ps, hchunks, hfutures, -⟩, hsized⟩ := hs
      cases hstep with
      | post | receive => exact hsized
      | @call report is result chunks futures hreports hcall =>
          rw [hfutures, futuresOf, List.length_map] at hreports
          rw [hchunks, hfutures, test_some_eq hreports] at hcall
          cases hcall
          intro c hc
          rcases List.mem_append.mp hc with hc | hc
          · exact hsized c hc
          · obtain ⟨p, -, rfl⟩ := List.mem_map.mp hc
            exact p.attached_sized
  exact hboth.2

/-- What a run returns was posted, and has the buffer that it had. -/
theorem returned_posted (h : system.Reachable s) {c : Ptr Chunk} (hc : c ∈ s.returned) :
    identity c ∈ s.posted.map identity := by
  obtain ⟨ps, -, -, hperm⟩ := kept_reachable h
  exact hperm.mem_iff.mpr (List.mem_append_left _ (List.mem_map_of_mem hc))

end Run

/-- For lists that correspond and every report of a communicator, `test_some` returns the chunks
of the completed transfers with their own buffers, and the lists that it leaves have the other
transfers in their order and correspond. So they do after any number of calls, no chunk is ever
returned with the buffer of another, and what is returned may be posted again. -/
theorem completions_paired :
    (∀ (ps : List Posting) (report : Report) (is : List Nat), Reports ps.length report is →
      testSome report (chunksOf ps) (futuresOf ps) =
        .ok ((select ps is).map Posting.attached, chunksOf (others ps is),
          futuresOf (others ps is)) ∧
      (others ps is).Sublist ps ∧ (select ps is ++ others ps is).Perm ps) ∧
    ∀ s, system.Reachable s →
      Kept s ∧ ∀ c ∈ s.returned,
        identity c ∈ s.posted.map identity ∧ Sized c.object.value := by
  refine ⟨fun ps report is h => ?_, fun s h => ?_⟩
  · obtain ⟨hnodup, hlt⟩ := h.positions
    exact ⟨test_some_eq h, others_sublist, select_append_others_perm hnodup hlt⟩
  · exact ⟨kept_reachable h, fun c hc => ⟨returned_posted h hc, returned_sized h c hc⟩⟩

/-- A chunk at an address, with its buffer at the next one. -/
def place (address : Nat) (c : Coll.Chunk) : Ptr Chunk :=
  ⟨address, ⟨c.id, c.destination, c.metadata, c.data.map (Ptr.mk (address + 1)), c.dataSize⟩⟩

theorem place_value (address : Nat) (c : Coll.Chunk) : (place address c).object.value = c := by
  cases c with
  | mk id destination metadata data dataSize =>
      rw [place, Chunk.value, Option.map_map, Function.comp_def, Option.map_id']

/-- A chunk of one byte and its buffer. -/
def oneByte (address id : Nat) (content : UInt8) : Posting :=
  ⟨⟨address, ⟨id, none, some [], none, 1⟩⟩, ⟨address + 1, .singleton .host content⟩, rfl, rfl⟩

/-- A chunk that is sent, and the message that announces the one that is received. -/
def sentChunk : Coll.Chunk := .fromPackedData 0 0 none ⟨[], .singleton .host 5⟩

def announcement : Bytes := (Coll.Chunk.fromPackedData 1 0 none ⟨[], .singleton .host 6⟩).serialize

/-- Of three transfers the last and the first are reported, in this order. In a run a send and a
receive are posted, the payload arrives, and both are returned. -/
theorem completions_paired_three :
    testSome (.mpi (.ok (some [2, 0])))
        (chunksOf [oneByte 10 0 5, oneByte 20 1 6, oneByte 30 2 7])
        (futuresOf [oneByte 10 0 5, oneByte 20 1 6, oneByte 30 2 7]) =
      .ok ([(oneByte 30 2 7).attached, (oneByte 10 0 5).attached],
        chunksOf [oneByte 20 1 6], futuresOf [oneByte 20 1 6]) ∧
    ∃ s, system.Reachable s ∧ s.posted = [place 10 sentChunk,
        place 20 (.deserialize announcement .host)] ∧
      s.returned = [(oneByte 20 1 6).attached, (oneByte 10 0 5).attached] ∧
      Kept s ∧ ∀ c ∈ s.returned, identity c ∈ s.posted.map identity ∧ Sized c.object.value := by
  have hcall := completions_paired.1 [oneByte 10 0 5, oneByte 20 1 6, oneByte 30 2 7]
    (.mpi (.ok (some [2, 0]))) [2, 0] (.mpi (by decide) (by decide))
  refine ⟨hcall.1, ?_⟩
  have hsent : Sized (place 10 sentChunk).object.value := by
    rw [place_value]
    exact from_packed_data_sized _ _ _ _
  have hannounced : Sized (place 20 (.deserialize announcement .host)).object.value := by
    rw [place_value]
    exact deserialize_sized _ _
  have hpost := (System.Reachable.of_init (S := system) rfl).next (.post hsent rfl)
  have hposts := hpost.next (.post hannounced rfl)
  have hreceive := hposts.next
    (@Step.receive _ 1 (.singleton .host 6) ⟨21, .singleton .host 0⟩ rfl rfl)
  have hall := hreceive.next
    (@Step.call _ (.mpi (.ok (some [1, 0]))) [1, 0] _ _ _ (.mpi (by decide) (by decide)) rfl)
  exact ⟨_, hall, rfl, rfl, completions_paired.2 _ hall⟩

end Rapidsmpf.Coll.TestSome
