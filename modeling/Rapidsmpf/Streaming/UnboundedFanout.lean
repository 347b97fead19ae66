import Rapidsmpf.Streaming.Outlet

/-!
# The unbounded fanout

`UnboundedFanout` of `streaming/core/fanout.cpp`: one receive task that stages the messages of the
input channel in the store of the context, and for each output channel a send task that copies
them from there. A send task takes the ids that are new to it in one batch and copies and sends
them one after the other, without the lock; `next` is its entry of `per_ch_processed`, of which
`InvalidIdx` is `none`. The receive task waits until some send task has caught up, receives a
message, and purges what every valid entry has passed at the moment of the request.

The steps are the sections under the mutex and the operations on channels and on the store. A
condition variable may wake a task at any time, so the predicate of a wait may be evaluated at any
time; its evaluation sets the two locals of the receive task also when it fails. A send task may
throw at the copy of a message.
-/

namespace Rapidsmpf.Streaming.Unbounded

open Protocol ListFacts

universe u

variable {α : Type u}

/-- Where the receive task is. -/
inductive Recv (α : Type u) where
  /-- In `wait_for_data_request`, with its two locals. -/
  | waiting (processedMin processedMax : Option Nat)
  | receiving (processedMin : Nat)
  /-- A message, or the end of the input, is received and not yet staged. -/
  | received (processedMin : Nat) (msg : Option α)
  | purging (processedMin : Nat)
  /-- The loop is left, `no_more_input` not yet set by the destructor. -/
  | leaving
  | returned

/-- Where a send task is. -/
inductive Send (α : Type u) where
  | waiting
  /-- In the loop over `msg_ids_to_send`, with `n_available_messages`. -/
  | sending (ids : List Nat) (available : Nat)
  /-- In `ch_out->send` with a copy. -/
  | producing (ids : List Nat) (available : Nat) (m : α)
  /-- The batch is sent, the entry not yet updated. -/
  | updating (available : Nat)
  /-- The send was refused, the entry not yet invalidated. -/
  | failed
  /-- The loop is left, before the drain of the channel. -/
  | draining
  | drainWait
  /-- The entry is not yet invalidated by the destructor. -/
  | leaving
  /-- The channel is not yet shut down by the destructor. -/
  | closing
  | returned

/-- The state of the receive task and what the tasks share. `staged` are the messages behind
`recvMsgIds`, whether or not they are still in the store. Fewer than `2 ^ 64` messages are inserted,
so the counter does not wrap. -/
structure Shared (α : Type u) where
  input : List α
  staged : List α
  noMoreInput : Bool
  recvMsgIds : List Nat
  purgeIdx : Nat
  recv : Recv α
  counter : Nat
  store : Nat → Option α

/-- An output: its entry of `per_ch_processed`, its send task, its channel with the consumer, and
whether its send task has thrown. -/
structure Output (α : Type u) where
  next : Option Nat
  task : Send α
  outlet : Outlet α
  threw : Bool

structure State (α : Type u) where
  shared : Shared α
  outputs : List (Output α)

inductive RecvLabel where
  | request
  | receive
  | stage
  | purge
  | loop
  | leave

inductive SendLabel where
  | take
  | copy
  | copyThrows
  | sent
  | refused
  | batchDone
  | update
  | invalidate
  | drain
  | drained
  | leave
  | close

inductive Label (α : Type u) where
  | recv (l : RecvLabel)
  | send (i : Nat) (l : SendLabel)
  | consumer (i : Nat) (c : Consumer)
  /-- Another user of the store inserts a message. -/
  | insertOther (m : α)

/-- A step of the receive task, given the entries of `per_ch_processed`. -/
def recvStep (nexts : List (Option Nat)) (l : RecvLabel) (s : Shared α) : Option (Shared α) :=
  match l, s.recv with
  | .request, .waiting lo hi =>
      let valid := nexts.filterMap id
      -- without a valid entry the locals keep what an earlier evaluation has set
      let lo := if valid.isEmpty then lo else valid.min?
      let hi := if valid.isEmpty then hi else valid.max?
      if valid.isEmpty ∨ hi = some s.recvMsgIds.length then
        match lo with
        | some processedMin => some { s with recv := .receiving processedMin }
        | none => some { s with recv := .leaving }
      else some { s with recv := .waiting lo hi }
  | .receive, .receiving processedMin =>
      match s.input with
      | m :: rest => some { s with input := rest, recv := .received processedMin (some m) }
      | [] => some { s with recv := .received processedMin none }
  | .stage, .received processedMin none =>
      some { s with noMoreInput := true, recv := .purging processedMin }
  | .stage, .received processedMin (some m) =>
      some { s with
        counter := s.counter + 1
        store := Function.update s.store s.counter (some m)
        recvMsgIds := s.recvMsgIds ++ [s.counter]
        staged := s.staged ++ [m]
        recv := .purging processedMin }
  | .purge, .purging processedMin =>
      if s.purgeIdx < processedMin then
        match s.recvMsgIds[s.purgeIdx]? with
        | some id => some { s with
            store := Function.update s.store id none, purgeIdx := s.purgeIdx + 1 }
        | none => none
      else none
  | .loop, .purging processedMin =>
      if s.purgeIdx < processedMin then none
      else some { s with recv := if s.noMoreInput then .leaving else .waiting none none }
  | .leave, .leaving => some { s with noMoreInput := true, recv := .returned }
  | _, _ => none

/-- A step of a send task. -/
def sendStep (s : Shared α) (l : SendLabel) (o : Output α) : Option (Output α) :=
  match l, o.task with
  | .take, .waiting =>
      match o.next with
      | some k =>
          if s.noMoreInput ∨ k < s.recvMsgIds.length then
            if s.noMoreInput ∧ k = s.recvMsgIds.length then some { o with task := .draining }
            else some { o with task := .sending (s.recvMsgIds.drop k) s.recvMsgIds.length }
          else none
      | none => none
  | .copy, .sending (id :: ids) available =>
      match s.store id with
      | some m => some { o with task := .producing ids available m }
      -- message not found
      | none => some { o with task := .leaving, threw := true }
  | .copyThrows, .sending (_ :: _) _ => some { o with task := .leaving, threw := true }
  | .sent, .producing ids available m =>
      (o.outlet.produce m).map fun outlet => { o with outlet, task := .sending ids available }
  | .refused, .producing _ _ _ =>
      if o.outlet.ring.state = .running then none else some { o with task := .failed }
  | .batchDone, .sending [] available => some { o with task := .updating available }
  | .update, .updating available =>
      some { o with
        next := some available
        task := if available = s.recvMsgIds.length ∧ s.noMoreInput then .draining else .waiting }
  | .invalidate, .failed => some { o with next := none, task := .closing }
  | .drain, .draining => some { o with outlet := o.outlet.drain, task := .drainWait }
  | .drained, .drainWait =>
      if o.outlet.ring.buffered = [] then some { o with task := .leaving } else none
  | .leave, .leaving => some { o with next := none, task := .closing }
  | .close, .closing => some { o with outlet := o.outlet.close, task := .returned }
  | _, _ => none

def step (l : Label α) (s : State α) : Option (State α) :=
  match l with
  | .recv l => (recvStep (s.outputs.map Output.next) l s.shared).map fun shared => { s with shared }
  | .send i l =>
      match s.outputs[i]? with
      | some o => (sendStep s.shared l o).map fun o => { s with outputs := s.outputs.set i o }
      | none => none
  | .consumer i c =>
      match s.outputs[i]? with
      | some o => (o.outlet.act c).map fun outlet =>
          { s with outputs := s.outputs.set i { o with outlet } }
      | none => none
  | .insertOther m => some { s with shared := { s.shared with
      counter := s.shared.counter + 1
      store := Function.update s.shared.store s.shared.counter (some m) } }

/-- The fanout of `input` to `n` outputs, on a store that others may have used already. -/
def system (input : List α) : System (State α) (Label α) where
  init s := s.shared.input = input ∧ s.shared.staged = [] ∧ s.shared.noMoreInput = false ∧
    s.shared.recvMsgIds = [] ∧ s.shared.purgeIdx = 0 ∧ s.shared.recv = .waiting none none ∧
    ∀ o ∈ s.outputs, o = ⟨some 0, .waiting, .new, false⟩
  step s l s' := step l s = some s'

/-- The message in the hand of the receive task. -/
def Recv.inHand : Recv α → List α
  | .received _ (some m) => [m]
  | _ => []

/-- The index up to which the receive task purges before it asks again. -/
def Recv.bound : Recv α → Option Nat
  | .waiting processedMin _ => processedMin
  | .receiving processedMin => some processedMin
  | .received processedMin _ => some processedMin
  | .purging processedMin => some processedMin
  | .leaving => none
  | .returned => none

/-- No message will be staged any more. -/
def Shared.Over (s : Shared α) : Prop :=
  s.noMoreInput = true ∨
    match s.recv with
    | .received _ none => True
    | .leaving => True
    | .returned => True
    | _ => False

/-- What holds of the staged messages: those before the purge index are gone, the others are in
the store under their ids. -/
structure Staged (input : List α) (s : Shared α) : Prop where
  taken : s.staged ++ s.recv.inHand ++ s.input = input
  length : s.recvMsgIds.length = s.staged.length
  nodup : s.recvMsgIds.Nodup
  fresh : ∀ id ∈ s.recvMsgIds, id < s.counter
  purged : s.purgeIdx ≤ s.recvMsgIds.length
  bound : ∀ p ∈ s.recv.bound, p ≤ s.recvMsgIds.length
  gone : ∀ k id, k < s.purgeIdx → s.recvMsgIds[k]? = some id → s.store id = none
  present : ∀ k id, s.purgeIdx ≤ k → s.recvMsgIds[k]? = some id → s.store id = s.staged[k]?

/-- What holds of a valid entry of `per_ch_processed`. -/
structure Entry (input : List α) (s : Shared α) (next : Nat) : Prop where
  purged : s.purgeIdx ≤ next
  bound : ∀ p ∈ s.recv.bound, p ≤ next
  staged : next ≤ s.recvMsgIds.length
  complete : s.Over → s.staged = input

/-- The channel of the output is running, unless its consumer has shut it down. -/
def Output.Running (o : Output α) : Prop :=
  o.outlet.shut = true ∨ o.outlet.ring.state = .running

/-- How far a send task has got with the staged messages. -/
def Output.Progress (input : List α) (s : Shared α) (o : Output α) : Prop :=
  match o.task with
  | .waiting => o.next = some o.outlet.sent.length ∧ o.Running
  | .sending ids available =>
      (∃ k ∈ o.next, k ≤ o.outlet.sent.length) ∧ available ≤ s.recvMsgIds.length ∧
        o.outlet.sent.length + ids.length = available ∧
        ids <+: s.recvMsgIds.drop o.outlet.sent.length ∧ o.Running
  | .producing ids available m =>
      (∃ k ∈ o.next, k ≤ o.outlet.sent.length) ∧ available ≤ s.recvMsgIds.length ∧
        o.outlet.sent.length + 1 + ids.length = available ∧
        ids <+: s.recvMsgIds.drop (o.outlet.sent.length + 1) ∧
        s.staged[o.outlet.sent.length]? = some m ∧ o.Running
  | .updating available =>
      (∃ k ∈ o.next, k ≤ o.outlet.sent.length) ∧ available ≤ s.recvMsgIds.length ∧
        o.outlet.sent.length = available ∧ o.Running
  | .failed => o.outlet.shut = true
  | .draining => o.outlet.sent = input ∧ o.Running
  | .drainWait => o.outlet.shut = true ∨
      o.outlet.sent = input ∧ o.outlet.ring.state ≠ .stopped
  | .leaving | .closing | .returned =>
      o.outlet.shut = true ∨ o.threw = true ∨ o.outlet.received = input

/-- What holds of an output. -/
structure Served (input : List α) (s : Shared α) (o : Output α) : Prop where
  sound : o.outlet.Sound
  copied : o.outlet.sent <+: s.staged
  entry : ∀ k ∈ o.next, Entry input s k
  progress : o.Progress input s

variable {input : List α} {s s' : Shared α} {o o' : Output α}

/-- What an output has sent it keeps when the receive task stages more. -/
theorem Served.extend (ho : Served input s o) (hstaged : s.staged <+: s'.staged)
    (hids : s.recvMsgIds <+: s'.recvMsgIds) (hentry : ∀ k ∈ o.next, Entry input s' k) :
    Served input s' o := by
  have hlength := hids.length_le
  have hdrop : ∀ (ids : List Nat) (n : Nat), ids <+: s.recvMsgIds.drop n →
      ids <+: s'.recvMsgIds.drop n :=
    fun ids n h => h.trans (hids.drop n)
  have hprogress := ho.progress
  refine ⟨ho.sound, ho.copied.trans hstaged, hentry, ?_⟩
  unfold Output.Progress at hprogress ⊢
  split
  · next htask => simpa only [htask] using hprogress
  · next ids available htask =>
      simp only [htask] at hprogress
      obtain ⟨hnext, havailable, hcount, hprefix, hrunning⟩ := hprogress
      exact ⟨hnext, havailable.trans hlength, hcount, hdrop _ _ hprefix, hrunning⟩
  · next ids available m htask =>
      simp only [htask] at hprogress
      obtain ⟨hnext, havailable, hcount, hprefix, hm, hrunning⟩ := hprogress
      exact ⟨hnext, havailable.trans hlength, hcount, hdrop _ _ hprefix,
        getElem?_of_prefix hstaged hm, hrunning⟩
  · next available htask =>
      simp only [htask] at hprogress
      obtain ⟨hnext, havailable, hcount, hrunning⟩ := hprogress
      exact ⟨hnext, havailable.trans hlength, hcount, hrunning⟩
  all_goals
    next htask => simpa only [htask] using hprogress

section Receive

variable {nexts : List (Option Nat)}

/-- What a step of the receive task keeps. -/
structure Keeps (input : List α) (nexts : List (Option Nat)) (s s' : Shared α) : Prop where
  shared : Staged input s'
  staged : s.staged <+: s'.staged
  ids : s.recvMsgIds <+: s'.recvMsgIds
  entries : ∀ k, some k ∈ nexts → Entry input s' k

theorem Staged.move (hs : Staged input s) {r : Recv α} (hhand : r.inHand = s.recv.inHand)
    (hbound : ∀ p ∈ r.bound, p ≤ s.recvMsgIds.length) (noMoreInput : Bool) :
    Staged input { s with recv := r, noMoreInput } :=
  { hs with taken := hhand ▸ hs.taken, bound := hbound }

theorem Staged.staged_begins (hs : Staged input s) : s.staged <+: input :=
  ⟨s.recv.inHand ++ s.input, by rw [← List.append_assoc, hs.taken]⟩

/-- Steps that only move the receive task. -/
theorem Staged.keeps_of_move (hs : Staged input s)
    (hentries : ∀ k, some k ∈ nexts → Entry input s k) {r : Recv α} {noMoreInput : Bool}
    (hhand : r.inHand = s.recv.inHand)
    (hbound : ∀ p ∈ r.bound, p ≤ s.recvMsgIds.length ∧ ∀ k, some k ∈ nexts → p ≤ k)
    (hover : ∀ k, some k ∈ nexts → ({ s with recv := r, noMoreInput } : Shared α).Over →
      s.staged = input) :
    Keeps input nexts s { s with recv := r, noMoreInput } where
  shared := hs.move hhand (fun p hp => (hbound p hp).1) noMoreInput
  staged := List.prefix_rfl
  ids := List.prefix_rfl
  entries k hk := ⟨(hentries k hk).purged, fun p hp => (hbound p hp).2 k hk,
    (hentries k hk).staged, hover k hk⟩

/-- What a step of the receive task is, with its guard. -/
inductive RecvStep (nexts : List (Option Nat)) (s : Shared α) : RecvLabel → Shared α → Prop where
  | wait {lo hi lo' hi' : Option Nat} (hrecv : s.recv = .waiting lo hi)
      (hlo : lo' = lo ∨ lo' = (nexts.filterMap id).min?) :
      RecvStep nexts s .request { s with recv := .waiting lo' hi' }
  | request {lo hi : Option Nat} {p : Nat} (hrecv : s.recv = .waiting lo hi)
      (hp : some p = lo ∨ some p = (nexts.filterMap id).min?) :
      RecvStep nexts s .request { s with recv := .receiving p }
  | abandon {hi : Option Nat} (hrecv : s.recv = .waiting none hi) (hnone : ∀ k, some k ∉ nexts) :
      RecvStep nexts s .request { s with recv := .leaving }
  | receive {p : Nat} {m : α} {rest : List α} (hrecv : s.recv = .receiving p)
      (hinput : s.input = m :: rest) :
      RecvStep nexts s .receive { s with input := rest, recv := .received p (some m) }
  | finish {p : Nat} (hrecv : s.recv = .receiving p) (hinput : s.input = []) :
      RecvStep nexts s .receive { s with recv := .received p none }
  | close {p : Nat} (hrecv : s.recv = .received p none) :
      RecvStep nexts s .stage { s with noMoreInput := true, recv := .purging p }
  | stage {p : Nat} {m : α} (hrecv : s.recv = .received p (some m)) :
      RecvStep nexts s .stage { s with
        counter := s.counter + 1
        store := Function.update s.store s.counter (some m)
        recvMsgIds := s.recvMsgIds ++ [s.counter]
        staged := s.staged ++ [m]
        recv := .purging p }
  | purge {p id : Nat} (hrecv : s.recv = .purging p) (hlt : s.purgeIdx < p)
      (hid : s.recvMsgIds[s.purgeIdx]? = some id) :
      RecvStep nexts s .purge { s with
        store := Function.update s.store id none, purgeIdx := s.purgeIdx + 1 }
  | loop {p : Nat} (hrecv : s.recv = .purging p) (hle : p ≤ s.purgeIdx)
      (hmore : s.noMoreInput = false) :
      RecvStep nexts s .loop { s with recv := .waiting none none }
  | stop {p : Nat} (hrecv : s.recv = .purging p) (hle : p ≤ s.purgeIdx)
      (hmore : s.noMoreInput = true) : RecvStep nexts s .loop { s with recv := .leaving }
  | leave (hrecv : s.recv = .leaving) :
      RecvStep nexts s .leave { s with noMoreInput := true, recv := .returned }

theorem isEmpty_valid (h : (nexts.filterMap id).isEmpty = true) (k : Nat) : some k ∉ nexts := by
  intro hk
  rw [List.isEmpty_iff, List.filterMap_eq_nil_iff] at h
  cases h (some k) hk

theorem recvStep_cases {l : RecvLabel} (h : recvStep nexts l s = some s') :
    RecvStep nexts s l s' := by
  unfold recvStep at h
  split at h
  case h_1 lo hi hrecv =>
    by_cases hempty : (nexts.filterMap id).isEmpty = true
    · -- the predicate holds, and the locals are those of an earlier evaluation
      simp only [hempty, if_true, true_or] at h
      split at h
      · cases h
        exact .request hrecv (.inl rfl)
      · cases h
        exact .abandon hrecv (isEmpty_valid hempty)
    · simp only [hempty, Bool.false_eq_true, if_false, false_or] at h
      split at h
      · split at h
        · next p hp =>
            cases h
            exact .request hrecv (.inr hp.symm)
        · next hp =>
            rw [List.min?_eq_none_iff] at hp
            exact absurd (List.isEmpty_iff.mpr hp) hempty
      · cases h
        exact .wait hrecv (.inr rfl)
  case h_2 p hrecv =>
    split at h
    · next m rest hinput =>
        cases h
        exact .receive hrecv hinput
    · next hinput =>
        cases h
        exact .finish hrecv hinput
  case h_3 p hrecv =>
    cases h
    exact .close hrecv
  case h_4 p m hrecv =>
    cases h
    exact .stage hrecv
  case h_5 p hrecv =>
    split at h
    · next hlt =>
        split at h
        · next id hid =>
            cases h
            exact .purge hrecv hlt hid
        · cases h
    · cases h
  case h_6 p hrecv =>
    split at h
    · cases h
    · next hge =>
        by_cases hmore : s.noMoreInput = true
        · rw [if_pos hmore] at h
          cases h
          exact .stop hrecv (not_lt.mp hge) hmore
        · rw [if_neg hmore] at h
          cases h
          exact .loop hrecv (not_lt.mp hge) (Bool.eq_false_iff.mpr hmore)
  case h_7 hrecv =>
    cases h
    exact .leave hrecv
  case h_8 => cases h

/-- A new message is staged under a new id, at the end. -/
theorem Staged.stage (hs : Staged input s) {p : Nat} {m : α}
    (hrecv : s.recv = .received p (some m)) :
    Staged input { s with
      counter := s.counter + 1
      store := Function.update s.store s.counter (some m)
      recvMsgIds := s.recvMsgIds ++ [s.counter]
      staged := s.staged ++ [m]
      recv := .purging p } := by
  have hbound : p ≤ s.recvMsgIds.length := hs.bound p (by rw [hrecv]; rfl)
  have hnew : ∀ k id : Nat, s.recvMsgIds[k]? = some id → id ≠ s.counter := by
    intro k id hid
    exact (hs.fresh id (List.mem_of_getElem? hid)).ne
  have hlast : ∀ k id : Nat, (s.recvMsgIds ++ [s.counter])[k]? = some id →
      s.recvMsgIds[k]? = some id ∨ k = s.recvMsgIds.length ∧ id = s.counter := by
    intro k id hid
    rw [List.getElem?_append] at hid
    split at hid
    · exact .inl hid
    · next hge =>
        obtain ⟨hk, hid⟩ := List.getElem?_eq_some_iff.mp hid
        simp only [List.length_singleton, Nat.lt_one_iff] at hk
        refine .inr ⟨by omega, ?_⟩
        simpa [hk] using hid.symm
  refine ⟨?_, ?_, ?_, ?_, ?_, ?_, ?_, ?_⟩
  · have htaken := hs.taken
    rw [hrecv] at htaken
    simpa [Recv.inHand] using htaken
  · simp [hs.length]
  · rw [List.nodup_append]
    refine ⟨hs.nodup, by simp, fun a ha b hb => ?_⟩
    rw [List.mem_singleton.mp hb]
    exact (hs.fresh a ha).ne
  · intro id hid
    rcases List.mem_append.mp hid with hid | hid
    · exact (hs.fresh id hid).trans (Nat.lt_succ_self _)
    · rw [List.mem_singleton.mp hid]
      exact Nat.lt_succ_self _
  · rw [List.length_append]
    exact hs.purged.trans (Nat.le_add_right _ _)
  · intro q hq
    cases hq
    rw [List.length_append]
    exact hbound.trans (Nat.le_add_right _ _)
  · intro k id hk hid
    rcases hlast k id hid with hid | ⟨rfl, rfl⟩
    · exact (Function.update_of_ne (hnew k id hid) _ _).trans (hs.gone k id hk hid)
    · exact absurd hk (not_lt.mpr hs.purged)
  · intro k id hk hid
    rcases hlast k id hid with hid | ⟨rfl, rfl⟩
    · have hlt : k < s.staged.length := hs.length ▸ (List.getElem?_eq_some_iff.mp hid).1
      calc Function.update s.store s.counter (some m) id
          _ = s.store id := Function.update_of_ne (hnew k id hid) _ _
          _ = s.staged[k]? := hs.present k id hk hid
          _ = (s.staged ++ [m])[k]? := (List.getElem?_append_left hlt).symm
    · calc Function.update s.store s.counter (some m) s.counter
          _ = some m := Function.update_self ..
          _ = (s.staged ++ [m])[s.recvMsgIds.length]? := by
            rw [hs.length, List.getElem?_concat_length]

/-- The purge index passes one message. -/
theorem Staged.purge (hs : Staged input s) {p id : Nat} (hrecv : s.recv = .purging p)
    (hlt : s.purgeIdx < p) (hid : s.recvMsgIds[s.purgeIdx]? = some id) :
    Staged input { s with
      store := Function.update s.store id none, purgeIdx := s.purgeIdx + 1 } := by
  have hbound : p ≤ s.recvMsgIds.length := hs.bound p (by rw [hrecv]; rfl)
  have hne : ∀ k id' : Nat, k ≠ s.purgeIdx → s.recvMsgIds[k]? = some id' → id' ≠ id := by
    rintro k id' hk hid' rfl
    have hlt' : k < s.recvMsgIds.length := (List.getElem?_eq_some_iff.mp hid').1
    exact hk ((List.getElem?_inj hlt' hs.nodup).mp (hid'.trans hid.symm))
  refine { hs with purged := hlt.trans_le hbound, gone := ?_, present := ?_ }
  · intro k id' hk hid'
    by_cases hlast : k = s.purgeIdx
    · subst hlast
      cases hid.symm.trans hid'
      exact Function.update_self ..
    · have hbefore : k < s.purgeIdx := (Nat.le_of_lt_succ hk).lt_of_ne hlast
      exact (Function.update_of_ne (hne k id' hlast hid') _ _).trans (hs.gone k id' hbefore hid')
  · intro k id' hk hid'
    have hafter : s.purgeIdx < k := hk
    exact (Function.update_of_ne (hne k id' hafter.ne' hid') _ _).trans
      (hs.present k id' hafter.le hid')

/-- Purging passes no message that a valid entry has not passed, and nothing is staged after the
end of the input. -/
theorem recvStep_keeps {l : RecvLabel} (hs : Staged input s)
    (hentries : ∀ k, some k ∈ nexts → Entry input s k) (h : recvStep nexts l s = some s') :
    Keeps input nexts s s' := by
  have hleast : ∀ {lo hi : Option Nat} (q : Option Nat), s.recv = .waiting lo hi →
      q = lo ∨ q = (nexts.filterMap id).min? → ∀ p ∈ q,
        p ≤ s.recvMsgIds.length ∧ ∀ k, some k ∈ nexts → p ≤ k := by
    rintro lo hi q hrecv (rfl | rfl) p hp
    · have hp : p ∈ s.recv.bound := by rw [hrecv]; exact hp
      exact ⟨hs.bound p hp, fun k hk => (hentries k hk).bound p hp⟩
    · obtain ⟨hmem, hle⟩ := List.min?_eq_some_iff.mp hp
      have hp : some p ∈ nexts := by simpa using hmem
      exact ⟨(hentries p hp).staged, fun k hk => hle k (by simpa using hk)⟩
  have hsame : ∀ {p : Nat}, p ∈ s.recv.bound → ∀ q ∈ some p,
      q ≤ s.recvMsgIds.length ∧ ∀ k, some k ∈ nexts → q ≤ k := by
    rintro p hp q hq
    cases hq
    exact ⟨hs.bound p hp, fun k hk => (hentries k hk).bound p hp⟩
  cases recvStep_cases h with
  | wait hrecv hlo =>
      refine hs.keeps_of_move hentries (by rw [hrecv]; rfl) (hleast _ hrecv hlo) ?_
      rintro k hk (hover | hover)
      · exact (hentries k hk).complete (.inl hover)
      · cases hover
  | request hrecv hp =>
      refine hs.keeps_of_move hentries (by rw [hrecv]; rfl) (hleast _ hrecv hp) ?_
      rintro k hk (hover | hover)
      · exact (hentries k hk).complete (.inl hover)
      · cases hover
  | abandon hrecv hnone =>
      exact hs.keeps_of_move hentries (by rw [hrecv]; rfl) nofun
        (fun k hk => absurd hk (hnone k))
  | @receive p m rest hrecv hinput =>
      have htaken := hs.taken
      rw [hrecv, hinput] at htaken
      refine ⟨{ hs with taken := ?_, bound := ?_ }, List.prefix_rfl, List.prefix_rfl,
        fun k hk => ?_⟩
      · simpa [Recv.inHand] using htaken
      · exact fun q hq => (hsame (by rw [hrecv]; rfl) q hq).1
      · have hk' := hentries k hk
        refine ⟨hk'.purged, fun q hq => (hsame (by rw [hrecv]; rfl) q hq).2 k hk, hk'.staged, ?_⟩
        rintro (hover | hover)
        · exact hk'.complete (.inl hover)
        · cases hover
  | finish hrecv hinput =>
      have htaken := hs.taken
      rw [hrecv, hinput] at htaken
      refine hs.keeps_of_move hentries (by rw [hrecv]; rfl) (hsame (by rw [hrecv]; rfl)) ?_
      exact fun k hk _ => by simpa [Recv.inHand] using htaken
  | close hrecv =>
      refine hs.keeps_of_move hentries (by rw [hrecv]; rfl) (hsame (by rw [hrecv]; rfl)) ?_
      exact fun k hk _ => (hentries k hk).complete (.inr (by rw [hrecv]; trivial))
  | @stage p m hrecv =>
      refine ⟨hs.stage hrecv, List.prefix_append _ _, List.prefix_append _ _, fun k hk => ?_⟩
      have hk' := hentries k hk
      refine ⟨hk'.purged, fun q hq => (hsame (by rw [hrecv]; rfl) q hq).2 k hk, ?_, ?_⟩
      · rw [List.length_append]
        exact hk'.staged.trans (Nat.le_add_right _ _)
      · rintro (hover | hover)
        · -- the input was at its end, and there is a message in the hand
          have hall := hk'.complete (.inl hover)
          have htaken := congrArg List.length hs.taken
          rw [hall, hrecv] at htaken
          simp [Recv.inHand] at htaken
        · cases hover
  | purge hrecv hlt hid =>
      refine ⟨hs.purge hrecv hlt hid, List.prefix_rfl, List.prefix_rfl, fun k hk => ?_⟩
      have hk' := hentries k hk
      exact ⟨hlt.trans_le (hk'.bound _ (by rw [hrecv]; rfl)), hk'.bound, hk'.staged, hk'.complete⟩
  | loop hrecv hle hmore =>
      refine hs.keeps_of_move hentries (by rw [hrecv]; rfl) nofun ?_
      rintro k hk (hover | hover)
      · exact (hentries k hk).complete (.inl hover)
      · cases hover
  | stop hrecv hle hmore =>
      exact hs.keeps_of_move hentries (by rw [hrecv]; rfl) nofun
        (fun k hk _ => (hentries k hk).complete (.inl hmore))
  | leave hrecv =>
      exact hs.keeps_of_move hentries (by rw [hrecv]; rfl) nofun
        (fun k hk _ => (hentries k hk).complete (.inr (by rw [hrecv]; trivial)))

end Receive

section Send

/-- The message of the next id of a batch is in the store. -/
theorem Served.next_present (hs : Staged input s) (ho : Served input s o) {id available : Nat}
    {ids : List Nat} (htask : o.task = .sending (id :: ids) available) :
    ∃ m, s.store id = some m ∧ s.staged[o.outlet.sent.length]? = some m := by
  have hprogress := ho.progress
  simp only [Output.Progress, htask] at hprogress
  obtain ⟨⟨k, hk, hle⟩, havailable, hcount, hprefix, -⟩ := hprogress
  have hid : s.recvMsgIds[o.outlet.sent.length]? = some id := by
    have hhead := getElem?_of_prefix hprefix (k := 0) rfl
    rwa [List.getElem?_drop, Nat.add_zero] at hhead
  have hlt : o.outlet.sent.length < s.staged.length := by
    rw [← hs.length]
    exact (List.getElem?_eq_some_iff.mp hid).1
  have hpresent := hs.present _ _ ((ho.entry k hk).purged.trans hle) hid
  rw [List.getElem?_eq_getElem hlt] at hpresent
  exact ⟨_, hpresent, List.getElem?_eq_getElem hlt⟩

/-- An output that has sent as many messages as there are has sent the input, once the input is
at its end. -/
theorem Served.sent_all (hs : Staged input s) (ho : Served input s o) {k : Nat}
    (hk : o.next = some k) (hmore : s.noMoreInput = true)
    (hlength : o.outlet.sent.length = s.recvMsgIds.length) : o.outlet.sent = input := by
  rw [ho.copied.eq_of_length (hlength.trans hs.length)]
  exact (ho.entry k hk).complete (.inl hmore)

/-- The entry of an output may advance to what it has sent. -/
theorem Served.advance (ho : Served input s o) {k available : Nat} (hk : k ∈ o.next)
    (hle : k ≤ available) (havailable : available ≤ s.recvMsgIds.length) :
    ∀ k' ∈ some available, Entry input s k' := by
  rintro k' hk'
  cases hk'
  have hentry := ho.entry k hk
  exact ⟨hentry.purged.trans hle, fun p hp => (hentry.bound p hp).trans hle, havailable,
    hentry.complete⟩

/-- What a step of a send task is, with its guard. -/
inductive SendStep (s : Shared α) (o : Output α) : SendLabel → Output α → Prop where
  | finish {k : Nat} (htask : o.task = .waiting) (hnext : o.next = some k)
      (hmore : s.noMoreInput = true) (hk : k = s.recvMsgIds.length) :
      SendStep s o .take { o with task := .draining }
  | take {k : Nat} (htask : o.task = .waiting) (hnext : o.next = some k) :
      SendStep s o .take
        { o with task := .sending (s.recvMsgIds.drop k) s.recvMsgIds.length }
  | copy {id available : Nat} {ids : List Nat} {m : α}
      (htask : o.task = .sending (id :: ids) available) (hstore : s.store id = some m) :
      SendStep s o .copy { o with task := .producing ids available m }
  | threw {id available : Nat} {ids : List Nat} {l : SendLabel}
      (htask : o.task = .sending (id :: ids) available) :
      SendStep s o l { o with task := .leaving, threw := true }
  | sent {ids : List Nat} {available : Nat} {m : α} {outlet : Outlet α}
      (htask : o.task = .producing ids available m) (houtlet : o.outlet.produce m = some outlet) :
      SendStep s o .sent { o with outlet, task := .sending ids available }
  | refused {ids : List Nat} {available : Nat} {m : α}
      (htask : o.task = .producing ids available m) (hstate : o.outlet.ring.state ≠ .running) :
      SendStep s o .refused { o with task := .failed }
  | batchDone {available : Nat} (htask : o.task = .sending [] available) :
      SendStep s o .batchDone { o with task := .updating available }
  | update {available : Nat} (htask : o.task = .updating available) :
      SendStep s o .update { o with next := some available, task := .waiting }
  | updateLast {available : Nat} (htask : o.task = .updating available)
      (hall : available = s.recvMsgIds.length) (hmore : s.noMoreInput = true) :
      SendStep s o .update { o with next := some available, task := .draining }
  | invalidate (htask : o.task = .failed) :
      SendStep s o .invalidate { o with next := none, task := .closing }
  | drain (htask : o.task = .draining) :
      SendStep s o .drain { o with outlet := o.outlet.drain, task := .drainWait }
  | drained (htask : o.task = .drainWait) (hempty : o.outlet.ring.buffered = []) :
      SendStep s o .drained { o with task := .leaving }
  | leave (htask : o.task = .leaving) :
      SendStep s o .leave { o with next := none, task := .closing }
  | close (htask : o.task = .closing) :
      SendStep s o .close { o with outlet := o.outlet.close, task := .returned }

theorem sendStep_cases {l : SendLabel} (h : sendStep s l o = some o') : SendStep s o l o' := by
  unfold sendStep at h
  split at h
  case h_1 htask =>
    split at h
    · next k hnext =>
        split at h
        · split at h
          · next hend =>
              cases h
              exact .finish htask hnext hend.1 hend.2
          · cases h
            exact .take htask hnext
        · cases h
    · cases h
  case h_2 htask =>
    split at h
    · next m hstore =>
        cases h
        exact .copy htask hstore
    · cases h
      exact .threw htask
  case h_3 htask =>
    cases h
    exact .threw htask
  case h_4 htask =>
    obtain ⟨outlet, houtlet, rfl⟩ := Option.map_eq_some_iff.mp h
    exact .sent htask houtlet
  case h_5 htask =>
    split at h
    · cases h
    · next hstate =>
        cases h
        exact .refused htask hstate
  case h_6 htask =>
    cases h
    exact .batchDone htask
  case h_7 available htask =>
    by_cases hend : available = s.recvMsgIds.length ∧ s.noMoreInput = true
    · rw [if_pos hend] at h
      cases h
      exact .updateLast htask hend.1 hend.2
    · rw [if_neg hend] at h
      cases h
      exact .update htask
  case h_8 htask =>
    cases h
    exact .invalidate htask
  case h_9 htask =>
    cases h
    exact .drain htask
  case h_10 htask =>
    split at h
    · next hempty =>
        cases h
        exact .drained htask hempty
    · cases h
  case h_11 htask =>
    cases h
    exact .leave htask
  case h_12 htask =>
    cases h
    exact .close htask
  case h_13 => cases h

/-- Send tasks send what is staged, in its order. -/
theorem sendStep_keeps {l : SendLabel} (hs : Staged input s) (ho : Served input s o)
    (h : sendStep s l o = some o') : Served input s o' := by
  have hprogress := ho.progress
  unfold Output.Progress at hprogress
  cases sendStep_cases h with
  | finish htask hnext hmore hk =>
      simp only [htask] at hprogress
      obtain ⟨hsent, hrunning⟩ := hprogress
      cases hnext.symm.trans hsent
      have hall := ho.sent_all hs hnext hmore hk
      exact ⟨ho.sound, ho.copied, ho.entry, hall, hrunning⟩
  | take htask hnext =>
      simp only [htask] at hprogress
      obtain ⟨hsent, hrunning⟩ := hprogress
      cases hnext.symm.trans hsent
      refine ⟨ho.sound, ho.copied, ho.entry, ⟨_, hnext, le_rfl⟩, le_rfl, ?_, List.prefix_rfl,
        hrunning⟩
      rw [List.length_drop]
      exact Nat.add_sub_of_le (ho.entry _ hnext).staged
  | @copy id available ids m htask hstore =>
      obtain ⟨m', hm', hstaged⟩ := ho.next_present hs htask
      cases hstore.symm.trans hm'
      simp only [htask] at hprogress
      obtain ⟨hnext, havailable, hcount, hprefix, hrunning⟩ := hprogress
      have hcount' : o.outlet.sent.length + 1 + ids.length = available := by
        rw [← hcount, List.length_cons]
        omega
      refine ⟨ho.sound, ho.copied, ho.entry, hnext, havailable, hcount', ?_, hstaged, hrunning⟩
      · obtain ⟨rest, hrest⟩ := hprefix
        refine ⟨rest, ?_⟩
        rw [← List.drop_drop, ← hrest]
        rfl
  | threw htask => exact ⟨ho.sound, ho.copied, ho.entry, .inr (.inl rfl)⟩
  | @sent ids available m outlet htask houtlet =>
      simp only [htask] at hprogress
      obtain ⟨⟨k, hk, hle⟩, havailable, hcount, hprefix, hm, hrunning⟩ := hprogress
      have hsound := ho.sound.produce houtlet
      obtain ⟨hstate, rfl⟩ := Outlet.produce_eq_some houtlet
      have hlength : (o.outlet.sent ++ [m]).length = o.outlet.sent.length + 1 :=
        List.length_append
      refine ⟨hsound, ?_, ho.entry, ⟨k, hk, ?_⟩, havailable, ?_, ?_, .inr hstate⟩
      · exact concat_prefix ho.copied hm
      · change k ≤ (o.outlet.sent ++ [m]).length
        omega
      · change (o.outlet.sent ++ [m]).length + _ = _
        omega
      · change ids <+: s.recvMsgIds.drop (o.outlet.sent ++ [m]).length
        rw [hlength]
        exact hprefix
  | refused htask hstate =>
      simp only [htask] at hprogress
      obtain ⟨-, -, -, -, -, hrunning⟩ := hprogress
      exact ⟨ho.sound, ho.copied, ho.entry, hrunning.resolve_right hstate⟩
  | batchDone htask =>
      simp only [htask] at hprogress
      obtain ⟨hnext, havailable, hcount, -, hrunning⟩ := hprogress
      exact ⟨ho.sound, ho.copied, ho.entry, hnext, havailable, hcount, hrunning⟩
  | update htask =>
      simp only [htask] at hprogress
      obtain ⟨⟨k, hk, hle⟩, havailable, hsent, hrunning⟩ := hprogress
      subst hsent
      exact ⟨ho.sound, ho.copied, ho.advance hk hle havailable, rfl, hrunning⟩
  | updateLast htask hall hmore =>
      simp only [htask] at hprogress
      obtain ⟨⟨k, hk, hle⟩, havailable, hsent, hrunning⟩ := hprogress
      subst hsent
      have hinput := ho.sent_all hs hk hmore hall
      exact ⟨ho.sound, ho.copied, ho.advance hk hle havailable, hinput, hrunning⟩
  | invalidate htask =>
      simp only [htask] at hprogress
      exact ⟨ho.sound, ho.copied, (fun _ hk => by cases hk), .inl hprogress⟩
  | drain htask =>
      simp only [htask] at hprogress
      obtain ⟨hinput, hrunning⟩ := hprogress
      refine ⟨ho.sound.drain, ho.copied, ho.entry, hrunning.imp_right fun hstate => ⟨hinput, ?_⟩⟩
      change (Ring.shutdownDrain _).state ≠ _
      rw [Ring.shutdownDrain, if_pos hstate]
      exact fun h => by cases h
  | drained htask hempty =>
      simp only [htask] at hprogress
      refine ⟨ho.sound, ho.copied, ho.entry, hprogress.imp_right fun hlast => .inr ?_⟩
      exact (ho.sound.received_all hlast.2 hempty).trans hlast.1
  | leave htask =>
      simp only [htask] at hprogress
      exact ⟨ho.sound, ho.copied, (fun _ hk => by cases hk), hprogress⟩
  | close htask =>
      simp only [htask] at hprogress
      exact ⟨ho.sound.close, ho.copied, ho.entry, hprogress⟩

/-- A consumer takes away nothing that its output needs, unless it shuts the channel down. -/
theorem act_keeps {c : Consumer} {outlet : Outlet α} (hs : Staged input s) (ho : Served input s o)
    (h : o.outlet.act c = some outlet) : Served input s { o with outlet } := by
  obtain ⟨hsent, hshut, hstate, -⟩ := Outlet.act_eq_some h
  have hrunning : o.Running → ({ o with outlet } : Output α).Running := by
    rintro (hrunning | hrunning)
    · exact .inl (hshut hrunning)
    · exact hstate.imp_right fun hsame => hsame.2.trans hrunning
  have hreceived : o.outlet.received = input → outlet.received = input := fun hall =>
    ho.sound.act_received_all (ho.copied.trans hs.staged_begins) hall h
  have hprogress := ho.progress
  refine ⟨ho.sound.act h, hsent ▸ ho.copied, ho.entry, ?_⟩
  unfold Output.Progress at hprogress ⊢
  simp only [hsent]
  split
  · next htask =>
      simp only [htask] at hprogress
      exact hprogress.imp_right hrunning
  · next htask =>
      simp only [htask] at hprogress
      obtain ⟨hnext, havailable, hcount, hprefix, hopen⟩ := hprogress
      exact ⟨hnext, havailable, hcount, hprefix, hrunning hopen⟩
  · next htask =>
      simp only [htask] at hprogress
      obtain ⟨hnext, havailable, hcount, hprefix, hm, hopen⟩ := hprogress
      exact ⟨hnext, havailable, hcount, hprefix, hm, hrunning hopen⟩
  · next htask =>
      simp only [htask] at hprogress
      obtain ⟨hnext, havailable, hcount, hopen⟩ := hprogress
      exact ⟨hnext, havailable, hcount, hrunning hopen⟩
  · next htask =>
      simp only [htask] at hprogress
      exact hshut hprogress
  · next htask =>
      simp only [htask] at hprogress
      exact hprogress.imp_right hrunning
  · next htask =>
      simp only [htask] at hprogress
      rcases hprogress with hprogress | ⟨hinput, hopen⟩
      · exact .inl (hshut hprogress)
      · rcases hstate with hstate | ⟨-, hsame⟩
        · exact .inl hstate
        · exact .inr ⟨hinput, hsame ▸ hopen⟩
  all_goals
    next htask =>
      simp only [htask] at hprogress
      exact hprogress.imp hshut (Or.imp_right hreceived)

end Send

/-- What holds of the fanout. -/
structure State.Sound (input : List α) (s : State α) : Prop where
  shared : Staged input s.shared
  outputs : ∀ o ∈ s.outputs, Served input s.shared o

theorem State.Sound.set {s : State α} (hs : s.Sound input) {i : Nat}
    (ho' : Served input s.shared o') :
    ({ s with outputs := s.outputs.set i o' } : State α).Sound input where
  shared := hs.shared
  outputs o ho := by
    rcases List.mem_or_eq_of_mem_set ho with ho | rfl
    · exact hs.outputs o ho
    · exact ho'

theorem State.Sound.entries {s : State α} (hs : s.Sound input) (k : Nat)
    (hk : some k ∈ s.outputs.map Output.next) : Entry input s.shared k := by
  obtain ⟨o, ho, hnext⟩ := List.mem_map.mp hk
  exact (hs.outputs o ho).entry k hnext

/-- Messages of others in the store do not matter. -/
theorem Staged.insertOther (hs : Staged input s) (m : α) :
    Staged input { s with
      counter := s.counter + 1, store := Function.update s.store s.counter (some m) } := by
  have hsame : ∀ k id : Nat, s.recvMsgIds[k]? = some id →
      Function.update s.store s.counter (some m) id = s.store id := by
    intro k id hid
    exact Function.update_of_ne (hs.fresh id (List.mem_of_getElem? hid)).ne _ _
  exact { hs with
    fresh := fun id hid => (hs.fresh id hid).trans (Nat.lt_succ_self _)
    gone := fun k id hk hid => (hsame k id hid).trans (hs.gone k id hk hid)
    present := fun k id hk hid => (hsame k id hid).trans (hs.present k id hk hid) }

theorem step_sound {s s' : State α} {l : Label α} (hs : s.Sound input)
    (h : step l s = some s') : s'.Sound input := by
  cases l with
  | recv l =>
      obtain ⟨shared, hshared, rfl⟩ := Option.map_eq_some_iff.mp h
      have hkeeps := recvStep_keeps hs.shared hs.entries hshared
      refine ⟨hkeeps.shared, fun o ho => ?_⟩
      refine (hs.outputs o ho).extend hkeeps.staged hkeeps.ids fun k hk => ?_
      exact hkeeps.entries k (List.mem_map.mpr ⟨o, ho, hk⟩)
  | send i l =>
      simp only [step] at h
      split at h
      · next o ho =>
          obtain ⟨o', ho', rfl⟩ := Option.map_eq_some_iff.mp h
          exact hs.set (sendStep_keeps hs.shared (hs.outputs o (List.mem_of_getElem? ho)) ho')
      · cases h
  | consumer i c =>
      simp only [step] at h
      split at h
      · next o ho =>
          obtain ⟨outlet, houtlet, rfl⟩ := Option.map_eq_some_iff.mp h
          exact hs.set (act_keeps hs.shared (hs.outputs o (List.mem_of_getElem? ho)) houtlet)
      · cases h
  | insertOther m =>
      cases h
      refine ⟨hs.shared.insertOther m, fun o ho => ?_⟩
      refine (hs.outputs o ho).extend List.prefix_rfl List.prefix_rfl fun k hk => ?_
      exact { (hs.outputs o ho).entry k hk with }

theorem reachable_sound {s : State α} (hs : (system input).Reachable s) : s.Sound input := by
  refine hs.invariant ?_ (fun s l s' h hstep => step_sound h hstep)
  rintro s ⟨hinput, hstaged, hmore, hids, hpurge, hrecv, houtputs⟩
  refine ⟨⟨?_, ?_, ?_, ?_, ?_, ?_, ?_, ?_⟩, fun o ho => ?_⟩
  · rw [hstaged, hrecv, hinput]
    rfl
  · rw [hids, hstaged]
    rfl
  · rw [hids]
    exact List.nodup_nil
  · rw [hids]
    exact nofun
  · rw [hpurge]
    exact Nat.zero_le _
  · rw [hrecv]
    exact nofun
  · rw [hids]
    exact nofun
  · rw [hids]
    exact nofun
  · rw [houtputs o ho]
    refine ⟨.new, List.nil_prefix, ?_, rfl, .inr rfl⟩
    rintro k hk
    cases hk
    refine ⟨hpurge.le, by rw [hrecv]; exact nofun, Nat.zero_le _, ?_⟩
    rintro (hover | hover)
    · rw [hmore] at hover
      cases hover
    · rw [hrecv] at hover
      cases hover

/-- What a consumer has received is a beginning of the input. -/
theorem Served.received_begins (hs : Staged input s) (ho : Served input s o) :
    o.outlet.received <+: input :=
  (ho.sound.received_begins.trans ho.copied).trans hs.staged_begins

/-- A consumer that is told that nothing will come has received the input. -/
theorem Served.received_input (ho : Served input s o) (hended : o.outlet.ended = true)
    (hshut : o.outlet.shut = false) (hthrew : o.threw = false) : o.outlet.received = input := by
  have hexhausted := ho.sound.ended hended
  simp only [Ring.exhausted, Bool.and_eq_true, decide_eq_true_eq, List.isEmpty_iff] at hexhausted
  obtain ⟨hstate, hempty⟩ := hexhausted
  have hopen : ¬ o.Running := by
    rintro (hrunning | hrunning)
    · rw [hshut] at hrunning
      cases hrunning
    · exact hstate hrunning
  have hprogress := ho.progress
  unfold Output.Progress at hprogress
  split at hprogress
  · exact absurd hprogress.2 hopen
  · exact absurd hprogress.2.2.2.2 hopen
  · exact absurd hprogress.2.2.2.2.2 hopen
  · exact absurd hprogress.2.2.2 hopen
  · rw [hshut] at hprogress
    cases hprogress
  · exact absurd hprogress.2 hopen
  · rw [hshut] at hprogress
    obtain ⟨hinput, hstopped⟩ := hprogress.resolve_left (fun h => by cases h)
    exact (ho.sound.received_all hstopped hempty).trans hinput
  all_goals
    rw [hshut, hthrew] at hprogress
    exact (hprogress.resolve_left (fun h => by cases h)).resolve_left (fun h => by cases h)

end Rapidsmpf.Streaming.Unbounded
