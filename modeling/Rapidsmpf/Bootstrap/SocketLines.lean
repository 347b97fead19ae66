import Mathlib
import Rapidsmpf.Lib.Decimal
import Rapidsmpf.Lib.Fallible
import Rapidsmpf.Utils.Scanf

/-!
# The lines of the socket protocol

The text between `SocketBackend::put` and `get` and `SocketServer::handle_connection`, of
`bootstrap/socket_backend.cpp`, and `validate_key` of `bootstrap/utils.cpp`. A command is a line,
followed by the bytes of the value for a PUT; an answer is a line, followed by the bytes of the
value for a GET that finds one.
-/

namespace Rapidsmpf.Bootstrap.KeyValue

open Config Decimal Fallible Utils

/-! ## The code -/

/-- `max_key_size`. -/
def maxKeySize : Nat := 255

/-- `validate_key`, with the text of the exception. -/
def validateKey (key : Bytes) : Except Bytes Unit :=
  if key.length > maxKeySize then
    throw (literal "Key exceeds maximum length of " ++ print maxKeySize ++ literal " bytes: " ++
      key)
  else if key.isEmpty ∨ [46, 46] <:+: key ∨ 47 ∈ key ∨ 92 ∈ key ∨ 0 ∈ key ∨ key.any isSpace then
    throw (literal "Key contains invalid characters (e.g., whitespace, '..', '/', '\\'): " ++ key)
  else pure ()

/-- The buffer of `read_line`. -/
def lineSize : Nat := 512

/-- What `read_line` finds in the bytes that have arrived. -/
inductive Line where
  | blocked
  | tooLong
  | line (text rest : Bytes)

/-- `read_line`. -/
def readLine (stream : Bytes) : Line :=
  let text := stream.takeWhile fun c => c != 10
  if text.length > lineSize then .tooLong
  else
    match stream.dropWhile fun c => c != 10 with
    | [] => .blocked
    | _ :: rest => .line text rest

/-- A call of `put` or `get`. -/
inductive Call where
  | put (key value : Bytes)
  | get (key : Bytes) (timeoutMs : Int)
deriving DecidableEq

/-- The line of a PUT. -/
def putLine (key : Bytes) (size : Nat) : Bytes :=
  literal "PUT key=" ++ key ++ literal " valuelen=" ++ print size

/-- The line of a GET. -/
def getLine (key : Bytes) (timeoutMs : Int) : Bytes :=
  literal "GET key=" ++ key ++ literal " timeout=" ++ printInt timeoutMs

/-- What a call of the client of a rank sends, or the text of its exception. -/
def request (rank : Int) : Call → Except Bytes Bytes
  | .put key value => do
      if rank ≠ 0 then
        throw (literal "put() can only be called by rank 0, but was called by rank " ++
          printInt rank)
      validateKey key
      pure (putLine key value.length ++ 10 :: value)
  | .get key timeoutMs => do
      validateKey key
      pure (getLine key timeoutMs ++ [10])

/-- The formats of the commands, which have a key and a number each. -/
def scanCommand {α : Type} (name field : Bytes) (scan : Bytes → Option (α × Bytes))
    (line : Bytes) : Option (Bytes × α) := do
  let text ← (cStr line).dropPrefix? name
  let text ← (skip text).dropPrefix? (literal "key=")
  let (key, text) ← scanWord 255 text
  let text ← (skip text).dropPrefix? field
  let (number, _) ← scan text
  pure (key, number)

/-- The format `PUT key=%255s valuelen=%zu`. -/
def scanPut (line : Bytes) : Option (Bytes × Nat) :=
  scanCommand (literal "PUT") (literal "valuelen=") scanSize line

/-- The format `GET key=%255s timeout=%lld`. -/
def scanGet (line : Bytes) : Option (Bytes × Int) :=
  scanCommand (literal "GET") (literal "timeout=") scanLongLong line

/-- Where the handler of a connection is. -/
inductive Handler where
  /-- In `read_line`. -/
  | reading
  /-- In `read_all`, for a value to store. -/
  | storing (key : Bytes) (valuelen : Nat)
  /-- In `read_all`, for a value of another rank than 0. -/
  | discarding (valuelen : Nat)
  /-- In `wait_until`, for a key. -/
  | waiting (key : Bytes)
  /-- In a BARRIER or a SYNC. -/
  | synchronising
  /-- The connection is closed. -/
  | closed
deriving DecidableEq

/-- What a handler does with a line, and what it answers at once. -/
def dispatch (rank : Int) (line : Bytes) : Handler × Bytes :=
  if line.isEmpty then (.reading, [])
  else if (literal "PUT ").isPrefixOf line then
    match scanPut line with
    | none => (.reading, literal "ERROR bad PUT\n")
    | some (key, valuelen) =>
        if rank ≠ 0 then (.discarding valuelen, []) else (.storing key valuelen, [])
  else if (literal "GET ").isPrefixOf line then
    match scanGet line with
    | none => (.reading, literal "ERROR bad GET\n")
    | some (key, _) => (.waiting key, [])
  else if line = literal "BARRIER" ∨ line = literal "SYNC" then (.synchronising, [])
  else (.reading, literal "ERROR unknown command\n")

/-- The header of a value. -/
def valueHeader (size : Nat) : Bytes := literal "VALUE valuelen=" ++ print size ++ literal "\n"

/-- The format `VALUE valuelen=%zu`. -/
def scanValue (line : Bytes) : Option Nat := do
  let text ← (cStr line).dropPrefix? (literal "VALUE")
  let text ← (skip text).dropPrefix? (literal "valuelen=")
  let (valuelen, _) ← scanSize text
  pure valuelen

/-- How a call ends: `get` throws for a key that is not there in time, and what else is thrown is
given by its text. -/
inductive Outcome where
  | stored
  | value (value : Bytes)
  | unavailable (key : Bytes)
  | failed (text : Bytes)
deriving DecidableEq

/-- What a client does with the line of an answer: it reads a value, or its call ends. -/
def receiveLine (x : Call) (resp : Bytes) : Nat ⊕ Outcome :=
  match x with
  | .put _ _ =>
      if resp = literal "OK" then .inr .stored
      else .inr (.failed (literal "SocketBackend put() failed: " ++ resp))
  | .get key _ =>
      if resp = literal "TIMEOUT" then .inr (.unavailable key)
      else if (literal "VALUE ").isPrefixOf resp then
        match scanValue resp with
        | none => .inr (.failed (literal "SocketBackend get() malformed VALUE header: " ++ resp))
        | some valuelen => .inl valuelen
      else .inr (.failed (literal "SocketBackend get() unexpected response: " ++ resp))

/-! ## Lines that are read -/

section

variable {key text rest : Bytes}

/-- A key that `validate_key` accepts. -/
def Accepted (key : Bytes) : Prop := validateKey key = .ok ()

/-- A line ends where its newline is. -/
theorem read_line_text (htext : 10 ∉ text) (hlength : text.length ≤ lineSize) :
    readLine (text ++ 10 :: rest) = .line text rest := by
  have hword : ∀ c ∈ text, (c != 10) = true :=
    fun c hc => bne_iff_ne.mpr fun heq => htext (heq ▸ hc)
  have hstops : Stops (fun c : UInt8 => c != 10) (10 :: rest) := stops_cons rfl
  rw [readLine, takeWhile_word hword hstops, dropWhile_word hword hstops]
  simp [Nat.not_lt.mpr hlength]

theorem accepted_iff : Accepted key ↔ key.length ≤ maxKeySize ∧ key ≠ [] ∧
    ¬ [46, 46] <:+: key ∧ 47 ∉ key ∧ 92 ∉ key ∧ 0 ∉ key ∧ Spaceless key := by
  rw [Accepted, validateKey]
  split
  · next hlength =>
      constructor
      · exact nofun
      · intro h
        omega
  · next hlength =>
      have hspace : ¬ key.any isSpace = true ↔ Spaceless key := by simp [Spaceless]
      split
      · next hbad =>
          constructor
          · exact nofun
          · rintro ⟨-, hne, hdots, hslash, hback, hzero, hblank⟩
            rw [← hspace] at hblank
            rw [List.isEmpty_iff] at hbad
            tauto
      · next hgood =>
          rw [List.isEmpty_iff] at hgood
          rw [← hspace]
          refine ⟨fun _ => ?_, fun _ => rfl⟩
          refine ⟨Nat.le_of_not_lt hlength, ?_⟩
          tauto

/-- What the format of a command finds in a line that was made for it. -/
theorem scan_command {α : Type} {name field number : Bytes} {scan : Bytes → Option (α × Bytes)}
    {a : α} (hkey : Accepted key) (hname : 0 ∉ name) (hfield : 0 ∉ field)
    (hspaceless : Spaceless field) (hne : field ≠ []) (hnumber : 0 ∉ number)
    (hscan : scan number = some (a, [])) :
    scanCommand name field scan (name ++ 32 :: (literal "key=" ++ (key ++ 32 :: (field ++ number))))
      = some (key, a) := by
  obtain ⟨hlength, hnil, -, -, -, hzero, hblank⟩ := accepted_iff.mp hkey
  have hequals : Spaceless (literal "key=") := spaceless_of_all rfl
  have hchars : (0 : UInt8) ∉
      name ++ 32 :: (literal "key=" ++ (key ++ 32 :: (field ++ number))) := by
    have hequals : (0 : UInt8) ∉ literal "key=" := by decide
    generalize literal "key=" = equals at hequals ⊢
    simp [hname, hequals, hzero, hfield, hnumber]
  rw [scanCommand, c_str_of_not_mem hchars, drop_prefix]
  show ((skip (32 :: (literal "key=" ++ _))).dropPrefix? (literal "key=")).bind _ = _
  rw [skip_blank hequals (List.cons_ne_nil _ _), drop_prefix]
  show (scanWord 255 (key ++ _)).bind _ = _
  have hwidth : key.length ≤ 255 := hlength
  rw [scan_word hblank hnil hwidth (stops_cons rfl)]
  show ((skip (32 :: (field ++ number))).dropPrefix? field).bind _ = _
  rw [skip_blank hspaceless hne, drop_prefix]
  show (scan number).bind _ = _
  rw [hscan]
  rfl

theorem put_line_eq (key : Bytes) (size : Nat) :
    putLine key size = literal "PUT" ++ 32 ::
      (literal "key=" ++ (key ++ 32 :: (literal "valuelen=" ++ print size))) := by
  rw [putLine, List.append_assoc, List.append_assoc]
  rfl

theorem get_line_eq (key : Bytes) (timeoutMs : Int) : getLine key timeoutMs = literal "GET" ++
    32 :: (literal "key=" ++ (key ++ 32 :: (literal "timeout=" ++ printInt timeoutMs))) := by
  rw [getLine, List.append_assoc, List.append_assoc]
  rfl

/-- The server finds the key and the size in the line of a PUT. -/
theorem scan_put {size : Nat} (hkey : Accepted key) (hsize : size < 2 ^ 64) :
    scanPut (putLine key size) = some (key, size) := by
  have hzero : (0 : UInt8) ∉ print size := fun h => by cases print_digits h
  have hscan := scan_size_print hsize stops_nil
  rw [List.append_nil] at hscan
  rw [scanPut, put_line_eq]
  exact scan_command hkey (by decide) (by decide) (spaceless_of_all rfl) (List.cons_ne_nil _ _)
    hzero hscan

/-- The server finds the key in the line of a GET. -/
theorem scan_get (hkey : Accepted key) (timeoutMs : Int) :
    scanGet (getLine key timeoutMs) = some (key, toSigned timeoutMs) := by
  have hzero : (0 : UInt8) ∉ printInt timeoutMs := by
    intro h
    rcases print_int_char h with hsign | hdigit
    · cases hsign
    · cases hdigit
  have hscan := scan_long_long_print (z := timeoutMs) stops_nil
  rw [List.append_nil] at hscan
  rw [scanGet, get_line_eq]
  exact scan_command hkey (by decide) (by decide) (spaceless_of_all rfl) (List.cons_ne_nil _ _)
    hzero hscan

theorem dispatch_put {size : Nat} (hkey : Accepted key) (hsize : size < 2 ^ 64) :
    dispatch 0 (putLine key size) = (.storing key size, []) := by
  have hne : (putLine key size).isEmpty = false := rfl
  have hput : (literal "PUT ").isPrefixOf (putLine key size) = true := rfl
  rw [dispatch, hne, hput, scan_put hkey hsize]
  rfl

theorem dispatch_get (rank : Int) (hkey : Accepted key) (timeoutMs : Int) :
    dispatch rank (getLine key timeoutMs) = (.waiting key, []) := by
  have hne : (getLine key timeoutMs).isEmpty = false := rfl
  have hput : (literal "PUT ").isPrefixOf (getLine key timeoutMs) = false := rfl
  have hget : (literal "GET ").isPrefixOf (getLine key timeoutMs) = true := rfl
  rw [dispatch, hne, hput, hget, scan_get hkey]
  rfl

/-- A command line fits the buffer. -/
theorem put_line_fits {size : Nat} (hkey : Accepted key) (hsize : size < 2 ^ 64) :
    (putLine key size).length ≤ lineSize := by
  have hprint : (print size).length ≤ 20 := print_length_le (by decide) (hsize.trans (by decide))
  have hlength : key.length ≤ 255 := (accepted_iff.mp hkey).1
  have hcommand : (literal "PUT key=").length = 8 := rfl
  have hfield : (literal " valuelen=").length = 10 := rfl
  rw [putLine, List.length_append, List.length_append, List.length_append, hcommand, hfield,
    lineSize]
  omega

theorem get_line_fits {timeoutMs : Int} (hkey : Accepted key)
    (htimeout : timeoutMs.natAbs < 10 ^ 19) : (getLine key timeoutMs).length ≤ lineSize := by
  have hprint : (printInt timeoutMs).length ≤ 20 := print_int_length_le (by decide) htimeout
  have hlength : key.length ≤ 255 := (accepted_iff.mp hkey).1
  have hcommand : (literal "GET key=").length = 8 := rfl
  have hfield : (literal " timeout=").length = 9 := rfl
  rw [getLine, List.length_append, List.length_append, List.length_append, hcommand, hfield,
    lineSize]
  omega

theorem newline_not_mem_print (n : Nat) : (10 : UInt8) ∉ print n := by
  intro h
  cases print_digits h

/-- A command line has no newline in it. -/
theorem newline_not_mem_line {name field number : Bytes} (hkey : Accepted key)
    (hname : 10 ∉ name) (hfield : 10 ∉ field) (hnumber : 10 ∉ number) :
    (10 : UInt8) ∉ name ++ key ++ field ++ number := by
  obtain ⟨-, -, -, -, -, -, hblank⟩ := accepted_iff.mp hkey
  have hchars : (10 : UInt8) ∉ key := by
    intro h
    cases hblank 10 h
  simp [hname, hchars, hfield, hnumber]

theorem put_line_newline {size : Nat} (hkey : Accepted key) : 10 ∉ putLine key size := by
  have hname : (10 : UInt8) ∉ literal "PUT key=" := by decide
  have hfield : (10 : UInt8) ∉ literal " valuelen=" := by decide
  exact newline_not_mem_line hkey hname hfield (newline_not_mem_print size)

theorem get_line_newline {timeoutMs : Int} (hkey : Accepted key) : 10 ∉ getLine key timeoutMs := by
  have hname : (10 : UInt8) ∉ literal "GET key=" := by decide
  have hfield : (10 : UInt8) ∉ literal " timeout=" := by decide
  refine newline_not_mem_line hkey hname hfield fun h => ?_
  rcases print_int_char h with hsign | hdigit
  · cases hsign
  · cases hdigit

theorem read_put_line {size : Nat} (hkey : Accepted key) (hsize : size < 2 ^ 64) :
    readLine (putLine key size ++ 10 :: rest) = .line (putLine key size) rest :=
  read_line_text (put_line_newline hkey) (put_line_fits hkey hsize)

theorem read_get_line {timeoutMs : Int} (hkey : Accepted key)
    (htimeout : timeoutMs.natAbs < 10 ^ 19) :
    readLine (getLine key timeoutMs ++ 10 :: rest) = .line (getLine key timeoutMs) rest :=
  read_line_text (get_line_newline hkey) (get_line_fits hkey htimeout)

/-- The header of a value is read as its size, and the value is left. -/
theorem read_value_header {size : Nat} (hsize : size < 2 ^ 64) (rest : Bytes) :
    ∃ resp, readLine (valueHeader size ++ rest) = .line resp rest ∧
      ∀ key timeoutMs, receiveLine (.get key timeoutMs) resp = .inl size := by
  refine ⟨literal "VALUE valuelen=" ++ print size, ?_, fun key timeoutMs => ?_⟩
  · have hstream : valueHeader size ++ rest =
        (literal "VALUE valuelen=" ++ print size) ++ 10 :: rest := by
      rw [valueHeader, List.append_assoc _ (literal "\n")]
      rfl
    have hprint : (print size).length ≤ 20 := print_length_le (by decide) (hsize.trans (by decide))
    have hheader : (literal "VALUE valuelen=").length = 15 := rfl
    rw [hstream]
    refine read_line_text ?_ ?_
    · rw [List.mem_append]
      exact not_or.mpr ⟨by decide, newline_not_mem_print size⟩
    · rw [List.length_append, hheader, lineSize]
      omega
  · have htimeout : literal "VALUE valuelen=" ++ print size ≠ literal "TIMEOUT" :=
      fun h => by cases h
    have hvalue :
        (literal "VALUE ").isPrefixOf (literal "VALUE valuelen=" ++ print size) = true := rfl
    have hscan : scanValue (literal "VALUE valuelen=" ++ print size) = some size := by
      have hzero : (0 : UInt8) ∉ literal "VALUE valuelen=" ++ print size := by
        rw [List.mem_append]
        exact not_or.mpr ⟨by decide, fun h => by cases print_digits h⟩
      have hsplit : literal "VALUE valuelen=" ++ print size =
          literal "VALUE" ++ 32 :: (literal "valuelen=" ++ print size) := rfl
      have hfield : Spaceless (literal "valuelen=") := spaceless_of_all rfl
      have hprint := scan_size_print hsize stops_nil
      rw [List.append_nil] at hprint
      rw [scanValue, c_str_of_not_mem hzero, hsplit, drop_prefix]
      show ((skip (32 :: (literal "valuelen=" ++ print size))).dropPrefix? _).bind _ = _
      rw [skip_blank hfield (List.cons_ne_nil _ _), drop_prefix]
      show (scanSize (print size)).bind _ = _
      rw [hprint]
      rfl
    rw [receiveLine, if_neg htimeout, hvalue, hscan]
    rfl

end

end Rapidsmpf.Bootstrap.KeyValue
