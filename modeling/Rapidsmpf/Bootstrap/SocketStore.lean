import Mathlib
import Rapidsmpf.Lib.AtomicStore
import Rapidsmpf.Bootstrap.SocketLines

/-!
# The key-value store behind the sockets

Authenticated connections to `SocketServer`, each with the byte streams of its two directions, its
handler thread on the one side and the client of a rank on the other. Clients call `put` and `get`
in any order, and the handlers and clients take their steps in any order; a read takes its step when
the bytes are there. `protocol_keeps_framing` says that the streams never get out of step, and that
what is seen of a run is a history of an atomic store.

Time is left out: a handler that waits for a key may give up at any moment at which the key is not
there. So are the commands BARRIER and SYNC, which no `put` or `get` sends.
-/

namespace Rapidsmpf.Bootstrap.KeyValue

open AtomicStore (Answer Event Phase Turn Turns eventsOf latest)
open Config Protocol System Utils

/-! ## The code -/

/-- Where the client of a connection is: in a call, behind its request, or behind the header of a
value. -/
inductive Client where
  | idle
  | awaiting (x : Call)
  | receiving (valuelen : Nat)
deriving DecidableEq

/-- A connection: what was written and not read yet, for each direction, and its two ends. -/
structure Conn where
  toServer : Bytes
  toClient : Bytes
  handler : Handler
  client : Client

/-- A step of a handler or of a client. -/
inductive Move where
  | call (x : Call)
  | accept
  | store (key value : Bytes)
  | discard
  | find (key value : Bytes)
  | expire (key : Bytes)
  | receive
  | finish (outcome : Outcome)

/-- The length of a value is a `size_t`, and a timeout a number of milliseconds in 64 bits. -/
def Call.Representable : Call → Prop
  | put _ value => value.length < 2 ^ 64
  | get _ timeoutMs => -2 ^ 63 ≤ timeoutMs ∧ timeoutMs < 2 ^ 63

instance : DecidablePred Call.Representable
  | .put _ value => inferInstanceAs (Decidable (value.length < 2 ^ 64))
  | .get _ timeoutMs => inferInstanceAs (Decidable (-2 ^ 63 ≤ timeoutMs ∧ timeoutMs < 2 ^ 63))

/-- What a step does to the connection of a rank and to the map of the server, if it is enabled. A
call that throws before it has sent anything is no step. -/
def next (rank : Int) (kv : Bytes → Option Bytes) (conn : Conn) :
    Move → Option (Conn × (Bytes → Option Bytes))
  | .call x =>
      match conn.client, request rank x with
      | .idle, .ok bytes =>
          if x.Representable then
            some ({ conn with toServer := conn.toServer ++ bytes, client := .awaiting x }, kv)
          else none
      | _, _ => none
  | .accept =>
      match conn.handler, readLine conn.toServer with
      | .reading, .line line rest =>
          some ({ conn with
            toServer := rest
            toClient := conn.toClient ++ (dispatch rank line).2
            handler := (dispatch rank line).1 }, kv)
      | .reading, .tooLong => some ({ conn with handler := .closed }, kv)
      | _, _ => none
  | .store key value =>
      match conn.handler with
      | .storing key' valuelen =>
          if valuelen ≤ conn.toServer.length ∧ key' = key ∧ conn.toServer.take valuelen = value then
            some ({ conn with
              toServer := conn.toServer.drop valuelen
              toClient := conn.toClient ++ literal "OK\n"
              handler := .reading }, Function.update kv key (some value))
          else none
      | _ => none
  | .discard =>
      match conn.handler with
      | .discarding valuelen =>
          if valuelen ≤ conn.toServer.length then
            some ({ conn with
              toServer := conn.toServer.drop valuelen
              toClient := conn.toClient ++ literal "ERROR only rank 0 may PUT\n"
              handler := .reading }, kv)
          else none
      | _ => none
  | .find key value =>
      match conn.handler with
      | .waiting key' =>
          if key' = key ∧ kv key = some value then
            some ({ conn with
              toClient := conn.toClient ++ (valueHeader value.length ++ value)
              handler := .reading }, kv)
          else none
      | _ => none
  | .expire key =>
      match conn.handler with
      | .waiting key' =>
          if key' = key ∧ kv key = none then
            some ({ conn with
              toClient := conn.toClient ++ literal "TIMEOUT\n"
              handler := .reading }, kv)
          else none
      | _ => none
  | .receive =>
      match conn.client, readLine conn.toClient with
      | .awaiting x, .line line rest =>
          match receiveLine x line with
          | .inl valuelen =>
              some ({ conn with toClient := rest, client := .receiving valuelen }, kv)
          | .inr _ => none
      | _, _ => none
  | .finish outcome =>
      match conn.client with
      | .idle => none
      | .awaiting x =>
          match readLine conn.toClient with
          | .blocked => none
          | .tooLong =>
              if outcome = .failed (literal "Protocol line exceeds buffer size") then
                some ({ conn with client := .idle }, kv)
              else none
          | .line line rest =>
              if receiveLine x line = .inr outcome then
                some ({ conn with toClient := rest, client := .idle }, kv)
              else none
      | .receiving valuelen =>
          if valuelen ≤ conn.toClient.length ∧
              outcome = .value (conn.toClient.take valuelen) then
            some ({ conn with toClient := conn.toClient.drop valuelen, client := .idle }, kv)
          else none

variable {C : Type} [DecidableEq C]

structure State (C : Type) where
  kv : Bytes → Option Bytes
  conns : C → Conn

/-- A step on one connection. -/
def advance (rank : C → Int) (l : C × Move) (s : State C) : Option (State C) :=
  (next (rank l.1) s.kv (s.conns l.1) l.2).map fun r =>
    ⟨r.2, Function.update s.conns l.1 r.1⟩

/-- The server and its authenticated connections, each with the rank of its client. -/
def system (rank : C → Int) : System (State C) (C × Move) where
  init s := (∀ key, s.kv key = none) ∧ ∀ c, s.conns c = ⟨[], [], .reading, .idle⟩
  step s l s' := advance rank l s = some s'

/-! ## What is seen of a run -/

/-- The call as the atomic store has it. -/
def Call.atomic : Call → AtomicStore.Call Bytes Bytes
  | put key value => .put key value
  | get key _ => .get key

/-- The outcome as the atomic store has it. -/
def Outcome.answer : Outcome → Answer Bytes
  | .stored => .stored
  | .value bytes => .value bytes
  | .unavailable _ => .missed
  | .failed _ => .failed

/-- The event of a step: a call, its effect on the map or its end. -/
def Move.event : Move → Option (Event Bytes Bytes)
  | call x => some (.call x.atomic)
  | store key value => some (.store key value)
  | find key value => some (.find key value)
  | expire key => some (.miss key)
  | finish outcome => some (.finish outcome.answer)
  | accept | discard | receive => none

/-- The events of a run. -/
def events (moves : List (C × Move)) : List (C × Event Bytes Bytes) :=
  moves.filterMap fun l => l.2.event.map fun e => (l.1, e)

/-- The streams of a connection agree with where its call is: they hold what one end has sent of it
and the other has not read yet, and nothing else. -/
inductive Framed (rank : Int) : Conn → Phase Bytes Bytes → Prop where
  | idle : Framed rank ⟨[], [], .reading, .idle⟩ .idle
  | sent (x : Call) (bytes : Bytes) (hsent : request rank x = .ok bytes) (hx : x.Representable) :
      Framed rank ⟨bytes, [], .reading, .awaiting x⟩ (.called x.atomic)
  | storing (key value : Bytes) (hvalue : value.length < 2 ^ 64) :
      Framed rank ⟨value, [], .storing key value.length, .awaiting (.put key value)⟩
        (.called (.put key value))
  | waiting (key : Bytes) (timeoutMs : Int) :
      Framed rank ⟨[], [], .waiting key, .awaiting (.get key timeoutMs)⟩ (.called (.get key))
  | stored (key value : Bytes) :
      Framed rank ⟨[], literal "OK\n", .reading, .awaiting (.put key value)⟩ (.answered .stored)
  | found (key : Bytes) (timeoutMs : Int) (value : Bytes) (hvalue : value.length < 2 ^ 64) :
      Framed rank
        ⟨[], valueHeader value.length ++ value, .reading, .awaiting (.get key timeoutMs)⟩
        (.answered (.value value))
  | expired (key : Bytes) (timeoutMs : Int) :
      Framed rank ⟨[], literal "TIMEOUT\n", .reading, .awaiting (.get key timeoutMs)⟩
        (.answered .missed)
  | receiving (value : Bytes) :
      Framed rank ⟨[], value, .reading, .receiving value.length⟩ (.answered (.value value))

/-- The sizes of the values in the map are representable. -/
def Sized (kv : Bytes → Option Bytes) : Prop :=
  ∀ key value, kv key = some value → value.length < 2 ^ 64

/-! ## Each step keeps the framing -/

section

variable {rank : Int} {kv kv' : Bytes → Option Bytes} {conn conn' : Conn}
  {phase : Phase Bytes Bytes} {m : Move}

theorem request_put {key value bytes : Bytes} (h : request rank (.put key value) = .ok bytes) :
    rank = 0 ∧ Accepted key ∧ bytes = putLine key value.length ++ 10 :: value := by
  rw [request] at h
  split at h
  · cases h
  · next hrank =>
      obtain ⟨u, hkey, hbytes⟩ := Fallible.bind_eq_ok.mp h
      exact ⟨not_not.mp hrank, hkey, (Fallible.pure_eq_ok.mp hbytes).symm⟩

theorem request_get {key bytes : Bytes} {timeoutMs : Int}
    (h : request rank (.get key timeoutMs) = .ok bytes) :
    Accepted key ∧ bytes = getLine key timeoutMs ++ [10] := by
  rw [request] at h
  obtain ⟨u, hkey, hbytes⟩ := Fallible.bind_eq_ok.mp h
  exact ⟨hkey, (Fallible.pure_eq_ok.mp hbytes).symm⟩

/-- The handler finds the command that was sent, and leaves the value. -/
theorem accept_sent (kv : Bytes → Option Bytes) {x : Call} {bytes : Bytes}
    (hsent : request rank x = .ok bytes) (hx : x.Representable) :
    ∃ conn', next rank kv ⟨bytes, [], .reading, .awaiting x⟩ .accept = some (conn', kv) ∧
      Framed rank conn' (.called x.atomic) := by
  cases x with
  | put key value =>
      obtain ⟨rfl, hkey, rfl⟩ := request_put hsent
      refine ⟨⟨value, [], .storing key value.length, .awaiting (.put key value)⟩, ?_,
        .storing key value hx⟩
      rw [next, read_put_line hkey hx]
      dsimp only
      rw [dispatch_put hkey hx]
      rfl
  | get key timeoutMs =>
      obtain ⟨hkey, rfl⟩ := request_get hsent
      obtain ⟨hlow, hhigh⟩ := hx
      have htimeout : timeoutMs.natAbs < 10 ^ 19 := by omega
      refine ⟨⟨[], [], .waiting key, .awaiting (.get key timeoutMs)⟩, ?_, .waiting key timeoutMs⟩
      rw [next, read_get_line hkey htimeout]
      dsimp only
      rw [dispatch_get rank hkey]
      rfl

/-- The streams agree with the call again, and what was seen of the step is a step of the atomic
store, or nothing. -/
def Matched (rank : Int) (phase : Phase Bytes Bytes) (kv : Bytes → Option Bytes) (m : Move)
    (conn' : Conn) (kv' : Bytes → Option Bytes) : Prop :=
  ∃ phase', Framed rank conn' phase' ∧ Sized kv' ∧
    m.event.elim (phase' = phase ∧ kv' = kv) fun e =>
      e.Enabled kv ∧ Turn phase e phase' ∧ kv' = e.apply kv

theorem Sized.update {key value : Bytes} (hsized : Sized kv) (hvalue : value.length < 2 ^ 64) :
    Sized (Function.update kv key (some value)) := by
  intro key' value' hkv
  by_cases hkey : key' = key
  · rw [hkey, Function.update_self] at hkv
    cases hkv
    exact hvalue
  · rw [Function.update_of_ne hkey] at hkv
    exact hsized key' value' hkv

/-- A client without a call sends the request of one. -/
theorem matched_idle (hsized : Sized kv)
    (hnext : next rank kv ⟨[], [], .reading, .idle⟩ m = some (conn', kv')) :
    Matched rank .idle kv m conn' kv' := by
  cases m with
  | call x =>
      rw [next] at hnext
      dsimp only at hnext
      split at hnext
      · next bytes _ hsent =>
          split at hnext
          · next hx =>
              cases hnext
              exact ⟨_, .sent x bytes hsent hx, hsized, trivial, .call x.atomic, rfl⟩
          · cases hnext
      · cases hnext
  | accept | store | discard | find | expire | receive | finish => cases hnext

/-- The handler reads the line of a request. -/
theorem matched_sent {x : Call} {bytes : Bytes} (hsent : request rank x = .ok bytes)
    (hx : x.Representable) (hsized : Sized kv)
    (hnext : next rank kv ⟨bytes, [], .reading, .awaiting x⟩ m = some (conn', kv')) :
    Matched rank (.called x.atomic) kv m conn' kv' := by
  cases m with
  | accept =>
      obtain ⟨conn₁, haccept, hframed⟩ := accept_sent kv hsent hx
      rw [haccept] at hnext
      cases hnext
      exact ⟨_, hframed, hsized, rfl, rfl⟩
  | call | store | discard | find | expire | receive | finish => cases hnext

/-- The handler reads the value of a `put` and stores it. -/
theorem matched_storing {key value : Bytes} (hvalue : value.length < 2 ^ 64) (hsized : Sized kv)
    (hnext : next rank kv ⟨value, [], .storing key value.length, .awaiting (.put key value)⟩ m
      = some (conn', kv')) :
    Matched rank (.called (.put key value)) kv m conn' kv' := by
  cases m with
  | store key' value' =>
      rw [next] at hnext
      dsimp only at hnext
      split at hnext
      · next hstore =>
          obtain ⟨-, rfl, rfl⟩ := hstore
          cases hnext
          -- the value is all that is left in the stream
          rw [List.take_length, List.drop_length]
          exact ⟨_, .stored key value, hsized.update hvalue, trivial, .store key value, rfl⟩
      · cases hnext
  | call | accept | discard | find | expire | receive | finish => cases hnext

/-- The handler of a `get` answers with the value it finds, or gives up. -/
theorem matched_waiting {key : Bytes} {timeoutMs : Int} (hsized : Sized kv)
    (hnext : next rank kv ⟨[], [], .waiting key, .awaiting (.get key timeoutMs)⟩ m
      = some (conn', kv')) :
    Matched rank (.called (.get key)) kv m conn' kv' := by
  cases m with
  | find key' value =>
      rw [next] at hnext
      dsimp only at hnext
      split at hnext
      · next hfind =>
          obtain ⟨rfl, hkv⟩ := hfind
          cases hnext
          exact ⟨_, .found key timeoutMs value (hsized key value hkv), hsized, hkv,
            .find key value, rfl⟩
      · cases hnext
  | expire key' =>
      rw [next] at hnext
      dsimp only at hnext
      split at hnext
      · next hexpire =>
          obtain ⟨rfl, hkv⟩ := hexpire
          cases hnext
          exact ⟨_, .expired key timeoutMs, hsized, hkv, .miss key, rfl⟩
      · cases hnext
  | call | accept | store | discard | receive | finish => cases hnext

/-- A client that waits for a line which ends its call reads that line and returns. -/
theorem matched_line {x : Call} {text line : Bytes} {out : Outcome}
    (hline : readLine text = .line line []) (hreceive : receiveLine x line = .inr out)
    (hsized : Sized kv)
    (hnext : next rank kv ⟨[], text, .reading, .awaiting x⟩ m = some (conn', kv')) :
    Matched rank (.answered out.answer) kv m conn' kv' := by
  cases m with
  | receive =>
      rw [next] at hnext
      dsimp only at hnext
      rw [hline] at hnext
      dsimp only at hnext
      rw [hreceive] at hnext
      cases hnext
  | finish outcome =>
      rw [next] at hnext
      dsimp only at hnext
      rw [hline] at hnext
      dsimp only at hnext
      split at hnext
      · next houtcome =>
          obtain rfl : out = outcome := Sum.inr.inj (hreceive.symm.trans houtcome)
          cases hnext
          exact ⟨_, .idle, hsized, trivial, .finish out.answer, rfl⟩
      · cases hnext
  | call | accept | store | discard | find | expire => cases hnext

/-- A client of a `get` reads the header of the value. -/
theorem matched_found {key value : Bytes} {timeoutMs : Int} (hvalue : value.length < 2 ^ 64)
    (hsized : Sized kv)
    (hnext : next rank kv
      ⟨[], valueHeader value.length ++ value, .reading, .awaiting (.get key timeoutMs)⟩ m
        = some (conn', kv')) :
    Matched rank (.answered (.value value)) kv m conn' kv' := by
  obtain ⟨resp, hline, hresp⟩ := read_value_header hvalue value
  cases m with
  | receive =>
      rw [next] at hnext
      dsimp only at hnext
      rw [hline] at hnext
      dsimp only at hnext
      rw [hresp] at hnext
      cases hnext
      exact ⟨_, .receiving value, hsized, rfl, rfl⟩
  -- the header of a value ends no call
  | finish outcome =>
      rw [next] at hnext
      dsimp only at hnext
      rw [hline] at hnext
      dsimp only at hnext
      rw [hresp] at hnext
      cases hnext
  | call | accept | store | discard | find | expire => cases hnext

/-- A client behind the header of a value reads the value and returns it. -/
theorem matched_receiving {value : Bytes} (hsized : Sized kv)
    (hnext : next rank kv ⟨[], value, .reading, .receiving value.length⟩ m = some (conn', kv')) :
    Matched rank (.answered (.value value)) kv m conn' kv' := by
  cases m with
  | finish outcome =>
      rw [next] at hnext
      dsimp only at hnext
      split at hnext
      · next houtcome =>
          obtain ⟨-, rfl⟩ := houtcome
          cases hnext
          rw [List.take_length, List.drop_length]
          exact ⟨_, .idle, hsized, trivial, .finish (.value value), rfl⟩
      · cases hnext
  | call | accept | store | discard | find | expire | receive => cases hnext

/-- What a step does where the streams agree with the call: it is a step of the atomic store, or
nothing that is seen. -/
theorem framed_next (h : Framed rank conn phase) (hsized : Sized kv)
    (hnext : next rank kv conn m = some (conn', kv')) : Matched rank phase kv m conn' kv' := by
  cases h with
  | idle => exact matched_idle hsized hnext
  | sent x bytes hsent hx => exact matched_sent hsent hx hsized hnext
  | storing key value hvalue => exact matched_storing hvalue hsized hnext
  | waiting key timeoutMs => exact matched_waiting hsized hnext
  | stored key value =>
      have hline : readLine (literal "OK\n") = .line (literal "OK") [] := rfl
      exact matched_line hline rfl hsized hnext
  | found key timeoutMs value hvalue => exact matched_found hvalue hsized hnext
  | expired key timeoutMs =>
      have hline : readLine (literal "TIMEOUT\n") = .line (literal "TIMEOUT") [] := rfl
      exact matched_line hline rfl hsized hnext
  | receiving value => exact matched_receiving hsized hnext

/-- Between two calls the streams are empty. -/
theorem framed_idle (h : Framed rank conn phase) (hidle : conn.client = .idle) :
    conn = ⟨[], [], .reading, .idle⟩ := by
  cases h with
  | idle => rfl
  | sent | storing | waiting | stored | found | expired | receiving => cases hidle

/-- A call that has begun is never stuck: one of the two ends has a step. -/
theorem framed_progress (h : Framed rank conn phase) (hbusy : conn.client ≠ .idle)
    (kv : Bytes → Option Bytes) :
    ∃ m, (∀ x, m ≠ .call x) ∧ (next rank kv conn m).isSome := by
  cases h with
  | idle => exact absurd rfl hbusy
  | sent x bytes hsent hx =>
      obtain ⟨conn', haccept, -⟩ := accept_sent kv hsent hx
      exact ⟨.accept, nofun, by rw [haccept]; rfl⟩
  | storing key value hvalue =>
      refine ⟨.store key value, nofun, ?_⟩
      rw [next]
      dsimp only
      rw [if_pos ⟨le_refl _, rfl, List.take_length⟩]
      rfl
  | waiting key timeoutMs =>
      cases hkv : kv key with
      | some value =>
          refine ⟨.find key value, nofun, ?_⟩
          rw [next]
          dsimp only
          rw [if_pos ⟨rfl, hkv⟩]
          rfl
      | none =>
          refine ⟨.expire key, nofun, ?_⟩
          rw [next]
          dsimp only
          rw [if_pos ⟨rfl, hkv⟩]
          rfl
  | stored key value => exact ⟨.finish .stored, nofun, rfl⟩
  | found key timeoutMs value hvalue =>
      obtain ⟨resp, hline, hresp⟩ := read_value_header hvalue value
      refine ⟨.receive, nofun, ?_⟩
      rw [next]
      dsimp only
      rw [hline]
      dsimp only
      rw [hresp]
      rfl
  | expired key timeoutMs =>
      refine ⟨.finish (.unavailable key), nofun, ?_⟩
      have hline : readLine (literal "TIMEOUT\n") = .line (literal "TIMEOUT") [] := rfl
      have hend : receiveLine (.get key timeoutMs) (literal "TIMEOUT") =
          .inr (.unavailable key) := rfl
      rw [next]
      dsimp only
      rw [hline]
      dsimp only
      rw [if_pos hend]
      rfl
  | receiving value =>
      refine ⟨.finish (.value value), nofun, ?_⟩
      rw [next]
      dsimp only
      rw [if_pos ⟨le_refl _, by rw [List.take_length]⟩]
      rfl

/-- A request is one line that fits the buffer, and a value. -/
theorem request_line {x : Call} {bytes : Bytes} (hsent : request rank x = .ok bytes)
    (hx : x.Representable) :
    ∃ line value, bytes = line ++ 10 :: value ∧ 10 ∉ line ∧ line.length ≤ lineSize := by
  cases x with
  | put key value =>
      obtain ⟨-, hkey, rfl⟩ := request_put hsent
      exact ⟨_, value, rfl, put_line_newline hkey, put_line_fits hkey hx⟩
  | get key timeoutMs =>
      obtain ⟨hkey, rfl⟩ := request_get hsent
      obtain ⟨hlow, hhigh⟩ := hx
      exact ⟨_, [], rfl, get_line_newline hkey, get_line_fits hkey (by omega)⟩

end

/-! ## Runs -/

/-- The map is that of the atomic store, and the streams agree with its clients. -/
def Simulates (rank : C → Int) (s : State C) (a : AtomicStore.State C Bytes Bytes) : Prop :=
  a.kv = s.kv ∧ Sized s.kv ∧ ∀ c, Framed (rank c) (s.conns c) (a.phase c)

section

variable {rank : C → Int} {moves : List (C × Move)} {s : State C}

/-- The connections simulate the clients of an atomic store. -/
theorem system_simulates (h : (system rank).Run moves s) :
    ∃ a, AtomicStore.system.Run (events moves) a ∧ Simulates rank s a := by
  refine h.simulate (R := Simulates rank) ?_ ?_
  · rintro s ⟨hkv, hconns⟩
    refine ⟨⟨s.kv, fun _ => .idle⟩, ⟨hkv, fun _ => rfl⟩, rfl, ?_, fun c => ?_⟩
    · intro key value hsome
      rw [hkv] at hsome
      cases hsome
    · rw [hconns c]
      exact .idle
  · rintro s a ⟨c, m⟩ s' ⟨hkv, hsized, hframed⟩ hstep
    obtain ⟨⟨conn', kv'⟩, hnext, rfl⟩ := Option.map_eq_some_iff.mp hstep
    obtain ⟨phase', hframed', hsized', hmatch⟩ := framed_next (hframed c) hsized hnext
    have hothers : ∀ d, Framed (rank d) (Function.update s.conns c conn' d)
        (Function.update a.phase c phase' d) := by
      intro d
      by_cases hd : d = c
      · rw [hd, Function.update_self, Function.update_self]
        exact hframed'
      · rw [Function.update_of_ne hd, Function.update_of_ne hd]
        exact hframed d
    refine ⟨⟨kv', Function.update a.phase c phase'⟩, ⟨rfl, hsized', hothers⟩, ?_⟩
    cases hevent : m.event with
    | none =>
        rw [hevent] at hmatch
        obtain ⟨rfl, rfl⟩ := hmatch
        show (⟨s.kv, _⟩ : AtomicStore.State C Bytes Bytes) = a
        rw [← hkv, Function.update_eq_self]
    | some e =>
        rw [hevent] at hmatch
        obtain ⟨henabled, hturn, rfl⟩ := hmatch
        rw [← hkv] at henabled ⊢
        exact ⟨henabled, phase', hturn, rfl⟩

/-- Every request is a line that fits the buffer, followed by a value. In any run, each client makes
its calls in turns, and a call takes effect with the very key and value of the client; a get that
finds its key is answered with the latest value put under it, and no call fails otherwise. A client
between two calls has nothing in its streams, and a call that has begun is never stuck. -/
theorem protocol_keeps_framing (h : (system rank).Run moves s) :
    (∀ (r : Int) (x : Call) (bytes : Bytes), request r x = .ok bytes → x.Representable →
      ∃ line value, bytes = line ++ 10 :: value ∧ 10 ∉ line ∧ line.length ≤ lineSize) ∧
    (∀ before c key value after, events moves = before ++ (c, .find key value) :: after →
      latest before key = some value) ∧
    ∀ c, (∃ phase, Turns (eventsOf c (events moves)) phase ∧
        Framed (rank c) (s.conns c) phase) ∧
      Event.finish .failed ∉ eventsOf c (events moves) ∧
      ((s.conns c).client = .idle → s.conns c = ⟨[], [], .reading, .idle⟩) ∧
      ((s.conns c).client ≠ .idle →
        ∃ m, (∀ x, m ≠ .call x) ∧ (advance rank (c, m) s).isSome) := by
  obtain ⟨a, hrun, -, -, hframed⟩ := system_simulates h
  refine ⟨fun r x bytes hsent hx => request_line hsent hx, ?_, fun c => ?_⟩
  · intro before c key value after hevents
    rw [hevents] at hrun
    exact AtomicStore.find_latest hrun
  · have hturns := AtomicStore.turns hrun c
    refine ⟨⟨_, hturns, hframed c⟩, hturns.not_failed, framed_idle (hframed c), fun hbusy => ?_⟩
    obtain ⟨m, hm, hnext⟩ := framed_progress (hframed c) hbusy s.kv
    exact ⟨m, hm, by rwa [advance, Option.isSome_map]⟩

/-- A put and then a get of its key by one client. -/
theorem protocol_keeps_framing_put_get :
    ∃ (moves : List (Unit × Move)) (s : State Unit), (system fun _ => 0).Run moves s ∧
      ∃ before after, events moves = before ++ ((), .find [107] [10, 0]) :: after ∧
        latest before [107] = some [10, 0] := by
  have hinit : (system fun _ => 0).init
      (⟨fun _ => none, fun _ => ⟨[], [], .reading, .idle⟩⟩ : State Unit) :=
    ⟨fun _ => rfl, fun _ => rfl⟩
  have hsome : (List.foldlM (fun s l => advance (fun _ => 0) l s)
      (⟨fun _ => none, fun _ => ⟨[], [], .reading, .idle⟩⟩ : State Unit)
      [((), .call (.put [107] [10, 0])), ((), .accept), ((), .store [107] [10, 0]),
        ((), .finish .stored), ((), .call (.get [107] 5)), ((), .accept),
        ((), .find [107] [10, 0])]).isSome = true := rfl
  have hrun := Run.exec (.init hinit) (fun _ _ _ h => h) (Option.some_get hsome).symm
  obtain ⟨-, hlatest, -⟩ := protocol_keeps_framing hrun
  have hevents := hlatest [((), .call (.put [107] [10, 0])), ((), .store [107] [10, 0]),
    ((), .finish .stored), ((), .call (.get [107]))] () [107] [10, 0] [] rfl
  exact ⟨_, _, hrun, _, [], rfl, hevents⟩

end

end Rapidsmpf.Bootstrap.KeyValue
