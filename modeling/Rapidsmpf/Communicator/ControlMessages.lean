import Mathlib
import Rapidsmpf.Lib.Codec
import Rapidsmpf.Memory.Buffer

/-!
# Control messages of the UCXX communicator

`communicator/ucxx.cpp`: listener addresses are packed into messages by one traversal that adds up
the size, one that writes and one that reads. A message is allocated before it is written, and
nothing checks the reads, so a read that leaves the message is an error of the model's own.

A `ucxx::Address` is given by the bytes of its string view, from which `AddressBuilder` makes it.
-/

namespace Rapidsmpf.Ucxx

open LittleEndian Codec Fallible

/-! ## The code -/

inductive RemoteAddress where
  | hostPort (host : Bytes) (port : UInt16)
  | worker (address : Bytes)
deriving DecidableEq

structure ListenerAddress where
  address : RemoteAddress
  rank : Int32
deriving DecidableEq

inductive ControlMessage where
  | assignRank
  | queryRank
  | registerListenerAddress
  | distributeListenerAddresses
deriving DecidableEq

/-- The value of the enumerator. -/
def ControlMessage.toNat : ControlMessage → Nat
  | assignRank => 0
  | queryRank => 1
  | registerListenerAddress => 2
  | distributeListenerAddresses => 3

inductive ControlData where
  | rank (rank : Int32)
  | listenerAddress (a : ListenerAddress)

/-- The exceptions, and a read outside a message. -/
inductive ControlError where
  | outside
  | lengthError
  | wrongType
  | invalidControl
  | badVariant
  | notRoot
deriving DecidableEq

/-- A rank in memory. -/
def rankBytes (rank : Int32) : Bytes := toBytes 4 rank.toUInt32.toNat

/-- `listener_address_packed_size`. -/
def listenerAddressPackedSize (a : ListenerAddress) : Nat :=
  match a.address with
  | .hostPort host _ => 4 + 8 + host.length + 2 + 4
  | .worker address => 4 + 8 + address.length + 4

/-- `listener_address_pack_into`. -/
def listenerAddressPackInto (a : ListenerAddress) (c : Cursor) : Cursor :=
  match a.address with
  | .hostPort host port =>
      let c := c.write (toBytes 4 1)
      let c := c.write (toBytes 8 host.length)
      let c := c.write host
      let c := c.write (toBytes 2 port.toNat)
      c.write (rankBytes a.rank)
  | .worker address =>
      let c := c.write (toBytes 4 0)
      let c := c.write (toBytes 8 address.length)
      let c := c.write address
      c.write (rankBytes a.rank)

/-- `decode` of a number of bytes. -/
def decode (n : Nat) : Reader ControlError Bytes := fun data =>
  if n ≤ data.length then .ok (data.take n, data.drop n) else .error .outside

/-- `decode` of an unsigned integer of a number of bytes. -/
def decodeWord (width : Nat) : Reader ControlError Nat := fun data => do
  let (bytes, data) ← decode width data
  pure (ofBytes bytes, data)

/-- `decode` of a rank. -/
def decodeRank : Reader ControlError Int32 := fun data => do
  let (n, data) ← decodeWord 4 data
  pure ((UInt32.ofNat n).toInt32, data)

/-- A `std::string` or a `std::vector` of bytes, which must not be longer than its `max_size`. -/
def allocate (size : Nat) : Except ControlError Unit :=
  if size < 2 ^ 63 then pure () else throw .lengthError

/-- A size, and as many bytes behind it. -/
def decodeSized : Reader ControlError Bytes := fun data => do
  let (size, data) ← decodeWord 8 data
  allocate size
  decode size data

/-- `listener_address_unpack`. -/
def listenerAddressUnpack (packed : Bytes) : Except ControlError ListenerAddress := do
  let (type, data) ← decodeWord 4 packed
  if type = 0 then
    let (address, data) ← decodeSized data
    let (rank, _) ← decodeRank data
    pure ⟨.worker address, rank⟩
  else if type = 1 then
    let (host, data) ← decodeSized data
    let (port, data) ← decodeWord 2 data
    let (rank, _) ← decodeRank data
    pure ⟨.hostPort host (.ofNat port), rank⟩
  else throw .wrongType

/-- `control_pack`, with the cursor where it ends. -/
def controlPack (control : ControlMessage) (data : ControlData) : Except ControlError Cursor :=
  match control, data with
  | .assignRank, .rank rank => do
      allocate (4 + 4)
      let c := Cursor.write (toBytes 4 control.toNat) ⟨0, List.replicate (4 + 4) 0⟩
      pure (c.write (rankBytes rank))
  | .queryRank, .listenerAddress a | .registerListenerAddress, .listenerAddress a => do
      let size := listenerAddressPackedSize a
      allocate (4 + 8 + size)
      let c := Cursor.write (toBytes 4 control.toNat) ⟨0, List.replicate (4 + 8 + size) 0⟩
      let c := c.write (toBytes 8 size)
      pure (listenerAddressPackInto a c)
  | .distributeListenerAddresses, _ => throw .invalidControl
  | _, _ => throw .badVariant

/-- `RankToListenerAddressMap`. Every registration in the code is under the rank that the address
has. -/
structure AddressMap where
  entries : List (Int32 × ListenerAddress)
  nodup : (entries.map Prod.fst).Nodup
  own : ∀ e ∈ entries, e.2.rank = e.1

namespace AddressMap

/-- The address of a rank. -/
def get (m : AddressMap) (rank : Int32) : Option ListenerAddress := m.entries.lookup rank

theorem nodup_concat {m : AddressMap} {rank : Int32} {a : ListenerAddress}
    (h : rank ∉ m.entries.map Prod.fst) : ((m.entries ++ [(rank, a)]).map Prod.fst).Nodup := by
  rw [List.map_append]
  exact m.nodup.append (List.nodup_singleton rank) (List.disjoint_singleton.mpr h)

theorem own_concat {m : AddressMap} {rank : Int32} {a : ListenerAddress} (h : a.rank = rank) :
    ∀ e ∈ m.entries ++ [(rank, a)], e.2.rank = e.1 := by
  intro e he
  rcases List.mem_append.mp he with he | he
  · exact m.own e he
  · rw [List.mem_singleton.mp he]
    exact h

/-- `emplace`, which keeps an address that is there. -/
def emplace (m : AddressMap) (rank : Int32) (a : ListenerAddress) (h : a.rank = rank) :
    AddressMap :=
  if hmem : rank ∈ m.entries.map Prod.fst then m
  else ⟨m.entries ++ [(rank, a)], nodup_concat hmem, own_concat h⟩

end AddressMap

/-- What the control messages use of `SharedResources`; `delayed` has the clients that the delayed
callbacks connect to. -/
structure SharedResources where
  rank : Int32
  nextRank : Int32
  listenerAddresses : AddressMap
  delayed : List Int32

/-- `register_listener_address`. -/
def SharedResources.registerListenerAddress (s : SharedResources) (rank : Int32)
    (a : ListenerAddress) (h : a.rank = rank) : SharedResources :=
  { s with listenerAddresses := s.listenerAddresses.emplace rank a h }

/-- One entry of a DistributeListenerAddresses message. -/
def decodeEntry (s : SharedResources) : Reader ControlError SharedResources := fun data => do
  let (packed, data) ← decodeSized data
  let a ← listenerAddressUnpack packed
  pure (s.registerListenerAddress a.rank a rfl, data)

/-- `control_unpack`. -/
def controlUnpack (buffer : Bytes) (s : SharedResources) :
    Except ControlError SharedResources := do
  let (control, data) ← decodeWord 4 buffer
  if control = ControlMessage.assignRank.toNat then
    let (rank, _) ← decodeRank data
    pure { s with rank }
  else if control = ControlMessage.queryRank.toNat then
    if s.rank = 0 then
      let (packed, _) ← decodeSized data
      let a ← listenerAddressUnpack packed
      let registered := { s with nextRank := s.nextRank + 1 }.registerListenerAddress s.nextRank
        { a with rank := s.nextRank } rfl
      pure { registered with delayed := s.delayed ++ [s.nextRank] }
    else throw .notRoot
  else if control = ControlMessage.registerListenerAddress.toNat then
    let (packed, _) ← decodeSized data
    let a ← listenerAddressUnpack packed
    pure (s.registerListenerAddress a.rank a rfl)
  else if control = ControlMessage.distributeListenerAddresses.toNat then
    let (count, data) ← decodeWord 8 data
    let (s, _) ← readLoop decodeEntry count s data
    pure s
  else pure s

/-- The count of entries and the size of the message in `distribute_listener_addresses`. -/
def distributedSize (m : AddressMap) (dst : Int32) : Nat × Nat :=
  m.entries.foldl (fun acc e =>
    if e.1 = dst then acc else (acc.1 + 1, acc.2 + (8 + listenerAddressPackedSize e.2))) (0, 4 + 8)

/-- The loop of `distribute_listener_addresses` that writes the entries. -/
def packEntries (m : AddressMap) (dst : Int32) (c : Cursor) : Cursor :=
  m.entries.foldl (fun c e =>
    if e.1 = dst then c
    else listenerAddressPackInto e.2 (c.write (toBytes 8 (listenerAddressPackedSize e.2)))) c

/-- The message of `distribute_listener_addresses` for a destination, with the cursor where it
ends. -/
def packDistributed (m : AddressMap) (dst : Int32) : Except ControlError Cursor := do
  let (count, total) := distributedSize m dst
  allocate total
  let c := Cursor.write (toBytes 4 ControlMessage.distributeListenerAddresses.toNat)
    ⟨0, List.replicate total 0⟩
  pure (packEntries m dst (c.write (toBytes 8 count)))

/-! ## Encodings -/

/-- The bytes of a packed listener address. -/
def ListenerAddress.encoding (a : ListenerAddress) : Bytes :=
  match a.address with
  | .hostPort host port =>
      toBytes 4 1 ++ (toBytes 8 host.length ++ (host ++ (toBytes 2 port.toNat ++ rankBytes a.rank)))
  | .worker address =>
      toBytes 4 0 ++ (toBytes 8 address.length ++ (address ++ rankBytes a.rank))

/-- A packed listener address behind its size. -/
def ListenerAddress.sized (a : ListenerAddress) : Bytes :=
  toBytes 8 (listenerAddressPackedSize a) ++ a.encoding

theorem length_encoding (a : ListenerAddress) :
    a.encoding.length = listenerAddressPackedSize a := by
  rw [ListenerAddress.encoding, listenerAddressPackedSize]
  cases a.address with
  | hostPort host port =>
      simp only [List.length_append, length_toBytes, rankBytes]
      omega
  | worker address =>
      simp only [List.length_append, length_toBytes, rankBytes]
      omega

/-- An address is packed into exactly its size. -/
theorem pack_into_fills (a : ListenerAddress) : Fills (listenerAddressPackInto a) a.encoding := by
  obtain ⟨address, rank⟩ := a
  cases address with
  | hostPort host port =>
      exact (Fills.write _).comp ((Fills.write _).comp ((Fills.write _).comp
        ((Fills.write _).comp (Fills.write _))))
  | worker address =>
      exact (Fills.write _).comp ((Fills.write _).comp ((Fills.write _).comp (Fills.write _)))

/-! ## Reading back -/

theorem reads_decode (bs : Bytes) : Reads (decode bs.length) bs bs := by
  intro rest
  rw [decode, if_pos (by rw [List.length_append]; omega), List.take_left, List.drop_left]

theorem reads_word {width n : Nat} (h : n < 256 ^ width) :
    Reads (decodeWord width) (toBytes width n) n := by
  intro rest
  have hread := reads_decode (toBytes width n) rest
  rw [length_toBytes] at hread
  rw [decodeWord, hread]
  show Except.ok (ofBytes (toBytes width n), rest) = _
  rw [of_bytes_to_bytes_of_lt h]

theorem reads_rank (rank : Int32) : Reads decodeRank (rankBytes rank) rank := by
  intro rest
  have hlt : rank.toUInt32.toNat < 256 ^ 4 := rank.toUInt32.toNat_lt
  rw [decodeRank, rankBytes, (reads_word hlt).bind_eq]
  show Except.ok ((UInt32.ofNat rank.toUInt32.toNat).toInt32, rest) = _
  rw [UInt32.ofNat_toNat, Int32.toInt32_toUInt32]

theorem reads_sized {bs : Bytes} (h : bs.length < 2 ^ 63) :
    Reads decodeSized (toBytes 8 bs.length ++ bs) bs := by
  intro rest
  have hlt : bs.length < 256 ^ 8 := h.trans (by decide)
  rw [decodeSized, List.append_assoc, (reads_word hlt).bind_eq]
  dsimp only
  rw [allocate, if_pos h]
  exact reads_decode bs rest

/-- A packed listener address is read back. -/
theorem unpack_encoding {a : ListenerAddress} (h : listenerAddressPackedSize a < 2 ^ 63) :
    listenerAddressUnpack a.encoding = .ok a := by
  obtain ⟨address, rank⟩ := a
  cases address with
  | hostPort host port =>
      have hsize : 4 + 8 + host.length + 2 + 4 < 2 ^ 63 := h
      have htype : 1 < 256 ^ 4 := by decide
      have hport : port.toNat < 256 ^ 2 := port.toNat_lt
      have hrank := reads_rank rank []
      rw [List.append_nil] at hrank
      rw [ListenerAddress.encoding, listenerAddressUnpack, (reads_word htype).bind_eq]
      dsimp only
      rw [if_neg (by decide), if_pos rfl, ← List.append_assoc (toBytes 8 _),
        (reads_sized (by omega)).bind_eq]
      dsimp only
      rw [(reads_word hport).bind_eq]
      dsimp only
      rw [hrank]
      show Except.ok (ListenerAddress.mk (.hostPort host (.ofNat port.toNat)) rank) = _
      rw [UInt16.ofNat_toNat]
  | worker address =>
      have hsize : 4 + 8 + address.length + 4 < 2 ^ 63 := h
      have htype : 0 < 256 ^ 4 := by decide
      have hrank := reads_rank rank []
      rw [List.append_nil] at hrank
      rw [ListenerAddress.encoding, listenerAddressUnpack, (reads_word htype).bind_eq]
      dsimp only
      rw [if_pos rfl, ← List.append_assoc (toBytes 8 _), (reads_sized (by omega)).bind_eq]
      dsimp only
      rw [hrank]
      rfl

/-- A listener address behind its size is read back. -/
theorem reads_sized_address {a : ListenerAddress} (h : listenerAddressPackedSize a < 2 ^ 63) :
    Reads decodeSized a.sized a.encoding := by
  rw [ListenerAddress.sized, ← length_encoding]
  exact reads_sized (by rwa [length_encoding])

theorem reads_entry (s : SharedResources) {a : ListenerAddress}
    (h : listenerAddressPackedSize a < 2 ^ 63) :
    Reads (decodeEntry s) a.sized (s.registerListenerAddress a.rank a rfl) := by
  intro rest
  rw [decodeEntry, (reads_sized_address h).bind_eq]
  dsimp only
  rw [unpack_encoding h]
  rfl

/-! ## Messages with one address -/

theorem length_message (control : ControlMessage) (a : ListenerAddress) :
    (toBytes 4 control.toNat ++ a.sized).length = 4 + 8 + listenerAddressPackedSize a := by
  rw [ListenerAddress.sized, List.length_append, List.length_append, length_encoding,
    length_toBytes, length_toBytes]
  omega

/-- The message that `control_pack` makes of a listener address. -/
theorem control_pack_address {control : ControlMessage} {a : ListenerAddress}
    (hcontrol : control = .queryRank ∨ control = .registerListenerAddress)
    (hsize : 4 + 8 + listenerAddressPackedSize a < 2 ^ 63) :
    controlPack control (.listenerAddress a) =
      .ok ⟨4 + 8 + listenerAddressPackedSize a, toBytes 4 control.toNat ++ a.sized⟩ := by
  have hfills : Fills (fun c => listenerAddressPackInto a
      ((c.write (toBytes 4 control.toNat)).write (toBytes 8 (listenerAddressPackedSize a))))
      (toBytes 4 control.toNat ++ a.sized) := by
    rw [ListenerAddress.sized]
    exact (Fills.write _).comp ((Fills.write _).comp (pack_into_fills a))
  have hcursor := hfills.cursor_eq (length_message control a).symm
  have hpack : controlPack control (.listenerAddress a) = (do
      allocate (4 + 8 + listenerAddressPackedSize a)
      pure (listenerAddressPackInto a ((Cursor.write (toBytes 4 control.toNat)
        ⟨0, List.replicate (4 + 8 + listenerAddressPackedSize a) 0⟩).write
          (toBytes 8 (listenerAddressPackedSize a))))) := by
    rcases hcontrol with rfl | rfl
    · rfl
    · rfl
  rw [hpack, allocate, if_pos hsize]
  exact congrArg Except.ok hcursor

/-- The root registers the address under the rank that it assigns. -/
theorem unpack_query {a : ListenerAddress} (h : listenerAddressPackedSize a < 2 ^ 63)
    (s : SharedResources) : controlUnpack (toBytes 4 ControlMessage.queryRank.toNat ++ a.sized) s =
      if s.rank = 0 then
        .ok { s with
          nextRank := s.nextRank + 1
          listenerAddresses :=
            s.listenerAddresses.emplace s.nextRank { a with rank := s.nextRank } rfl
          delayed := s.delayed ++ [s.nextRank] }
      else .error .notRoot := by
  have hcontrol : ControlMessage.queryRank.toNat < 256 ^ 4 := by decide
  have hread := reads_sized_address h []
  rw [List.append_nil] at hread
  rw [controlUnpack, (reads_word hcontrol).bind_eq]
  dsimp only
  rw [if_neg (by decide), if_pos rfl]
  split
  · rw [hread]
    show (listenerAddressUnpack a.encoding >>= fun a => _) = _
    rw [unpack_encoding h]
    rfl
  · rfl

/-- An address is registered under the rank that it has. -/
theorem unpack_register {a : ListenerAddress} (h : listenerAddressPackedSize a < 2 ^ 63)
    (s : SharedResources) :
    controlUnpack (toBytes 4 ControlMessage.registerListenerAddress.toNat ++ a.sized) s =
      .ok { s with listenerAddresses := s.listenerAddresses.emplace a.rank a rfl } := by
  have hcontrol : ControlMessage.registerListenerAddress.toNat < 256 ^ 4 := by decide
  have hread := reads_sized_address h []
  rw [List.append_nil] at hread
  rw [controlUnpack, (reads_word hcontrol).bind_eq]
  dsimp only
  rw [if_neg (by decide), if_neg (by decide), if_pos rfl, hread]
  show (listenerAddressUnpack a.encoding >>= fun a => _) = _
  rw [unpack_encoding h]
  rfl

/-! ## Messages with the addresses of the other ranks -/

namespace AddressMap

variable {m : AddressMap} {dst r : Int32}

/-- The entries but for the one of a rank. -/
def others (m : AddressMap) (dst : Int32) : List (Int32 × ListenerAddress) :=
  m.entries.filter fun e => decide (e.1 ≠ dst)

theorem lookup_eq (e : Int32 × ListenerAddress) (l : List (Int32 × ListenerAddress)) (r : Int32) :
    (e :: l).lookup r = if r = e.1 then some e.2 else l.lookup r := by
  rw [List.lookup_cons]
  by_cases hr : r = e.1
  · rw [beq_iff_eq.mpr hr, if_pos hr]
  · rw [beq_eq_false_iff_ne.mpr hr, if_neg hr]

theorem get_emplace (m : AddressMap) (rank : Int32) (a : ListenerAddress) (h : a.rank = rank)
    (r : Int32) :
    (m.emplace rank a h).get r = (m.get r).or (if r = rank then some a else none) := by
  rw [emplace]
  split
  · next hmem =>
      by_cases hr : r = rank
      · have hsome : (m.get r).isSome := by
          rw [get, List.lookup_isSome_iff]
          obtain ⟨e, he, hkey⟩ := List.mem_map.mp hmem
          exact ⟨e, he, by rw [hkey, hr]; exact BEq.refl rank⟩
        rw [Option.or_of_isSome hsome]
      · rw [if_neg hr, Option.or_none]
  · next hmem =>
      rw [get, List.lookup_append, lookup_eq, List.lookup_nil, get]

/-- A number of registrations adds what is looked up in their list. -/
theorem get_foldl_emplace {l : List (Int32 × ListenerAddress)} (hl : ∀ e ∈ l, e.2.rank = e.1)
    (m : AddressMap) (r : Int32) :
    (l.foldl (fun m e => m.emplace e.2.rank e.2 rfl) m).get r = (m.get r).or (l.lookup r) := by
  induction l generalizing m with
  | nil => exact Option.or_none.symm
  | cons e l ih =>
      have hrank : e.2.rank = e.1 := hl e List.mem_cons_self
      rw [List.foldl_cons, ih fun x hx => hl x (List.mem_cons_of_mem _ hx), get_emplace, hrank,
        Option.or_assoc, lookup_eq]
      by_cases hr : r = e.1
      · rw [if_pos hr, if_pos hr]
        rfl
      · rw [if_neg hr, if_neg hr]
        rfl

theorem own_others (m : AddressMap) (dst : Int32) : ∀ e ∈ m.others dst, e.2.rank = e.1 :=
  fun e he => m.own e (List.mem_filter.mp he).1

theorem lookup_others (m : AddressMap) (dst r : Int32) :
    (m.others dst).lookup r = if r = dst then none else m.get r := by
  rw [others, get]
  induction m.entries with
  | nil => exact (ite_self none).symm
  | cons e l ih =>
      by_cases he : e.1 = dst
      · rw [List.filter_cons_of_neg (by simpa using he), ih, lookup_eq]
        by_cases hr : r = dst
        · rw [if_pos hr, if_pos hr]
        · rw [if_neg hr, if_neg hr, if_neg (he ▸ hr)]
      · rw [List.filter_cons_of_pos (by simpa using he), lookup_eq, ih, lookup_eq]
        by_cases hr : r = e.1
        · rw [if_pos hr, if_pos hr, if_neg (hr ▸ he)]
        · rw [if_neg hr, if_neg hr]

/-- There are no more entries than ranks. -/
theorem length_others_lt (m : AddressMap) (dst : Int32) : (m.others dst).length < 256 ^ 8 := by
  have hnodup : (m.entries.map fun e => e.1.toUInt32.toNat).Nodup := by
    have hmap := m.nodup.map (f := fun rank : Int32 => rank.toUInt32.toNat) fun a b hab => by
      have hword : a.toUInt32 = b.toUInt32 := UInt32.toNat_inj.mp hab
      rw [← Int32.toInt32_toUInt32 a, ← Int32.toInt32_toUInt32 b, hword]
    rwa [List.map_map] at hmap
  have hsubset : (m.entries.map fun e => e.1.toUInt32.toNat) ⊆ List.range (2 ^ 32) := by
    intro n hn
    obtain ⟨e, -, rfl⟩ := List.mem_map.mp hn
    exact List.mem_range.mpr e.1.toUInt32.toNat_lt
  have hle := (hnodup.subperm hsubset).length_le
  rw [List.length_map, List.length_range] at hle
  have hfilter : (m.others dst).length ≤ m.entries.length := List.length_filter_le _ _
  omega

end AddressMap

theorem distributed_size_eq (m : AddressMap) (dst : Int32) :
    distributedSize m dst = ((m.others dst).length,
      4 + 8 + ((m.others dst).flatMap fun e => e.2.sized).length) := by
  have hloop : ∀ (l : List (Int32 × ListenerAddress)) (count total : Nat),
      l.foldl (fun acc e => if e.1 = dst then acc
        else (acc.1 + 1, acc.2 + (8 + listenerAddressPackedSize e.2))) (count, total) =
      (count + (l.filter fun e => decide (e.1 ≠ dst)).length,
        total + ((l.filter fun e => decide (e.1 ≠ dst)).flatMap fun e => e.2.sized).length) := by
    intro l
    induction l with
    | nil => exact fun count total => rfl
    | cons e l ih =>
        intro count total
        rw [List.foldl_cons]
        by_cases he : e.1 = dst
        · rw [if_pos he, ih, List.filter_cons_of_neg (by simpa using he)]
        · have hsized : e.2.sized.length = 8 + listenerAddressPackedSize e.2 := by
            rw [ListenerAddress.sized, List.length_append, length_toBytes, length_encoding]
          rw [if_neg he, ih, List.filter_cons_of_pos (by simpa using he), List.length_cons,
            List.flatMap_cons, List.length_append, hsized]
          refine Prod.ext ?_ ?_
          · show count + 1 + _ = _
            omega
          · show total + (8 + _) + _ = _
            omega
  rw [distributedSize, hloop, Nat.zero_add, AddressMap.others]

theorem pack_entries_fills (m : AddressMap) (dst : Int32) :
    Fills (packEntries m dst) ((m.others dst).flatMap fun e => e.2.sized) := by
  have hstep : ∀ e : Int32 × ListenerAddress, Fills (fun c =>
      listenerAddressPackInto e.2 (c.write (toBytes 8 (listenerAddressPackedSize e.2))))
      e.2.sized := fun e => (Fills.write _).comp (pack_into_fills e.2)
  have hloop := Fills.loop hstep (m.others dst)
  have hsame : packEntries m dst = fun c => (m.others dst).foldl (fun c e =>
      listenerAddressPackInto e.2 (c.write (toBytes 8 (listenerAddressPackedSize e.2)))) c := by
    funext c
    rw [packEntries, AddressMap.others, List.foldl_filter]
    simp only [decide_eq_true_eq, ne_eq, ite_not]
  rw [hsame]
  exact hloop

/-- A message with the addresses but for that of the destination. -/
def distributedMessage (m : AddressMap) (dst : Int32) : Bytes :=
  toBytes 4 ControlMessage.distributeListenerAddresses.toNat ++
    (toBytes 8 (m.others dst).length ++ (m.others dst).flatMap fun e => e.2.sized)

theorem length_distributed_message (m : AddressMap) (dst : Int32) :
    (distributedMessage m dst).length = (distributedSize m dst).2 := by
  rw [distributed_size_eq, distributedMessage, List.length_append, List.length_append,
    length_toBytes, length_toBytes]
  omega

/-- A message is filled up to its size. -/
theorem pack_distributed_eq {m : AddressMap} {dst : Int32}
    (hsize : (distributedSize m dst).2 < 2 ^ 63) :
    packDistributed m dst = .ok ⟨(distributedSize m dst).2, distributedMessage m dst⟩ := by
  have hfills : Fills (fun c => packEntries m dst
      ((c.write (toBytes 4 ControlMessage.distributeListenerAddresses.toNat)).write
        (toBytes 8 (m.others dst).length))) (distributedMessage m dst) :=
    (Fills.write _).comp ((Fills.write _).comp (pack_entries_fills m dst))
  have hcursor := hfills.cursor_eq (length_distributed_message m dst).symm
  have hcount : (distributedSize m dst).1 = (m.others dst).length := by rw [distributed_size_eq]
  have hpack : packDistributed m dst = (do
      allocate (distributedSize m dst).2
      pure (packEntries m dst
        ((Cursor.write (toBytes 4 ControlMessage.distributeListenerAddresses.toNat)
          ⟨0, List.replicate (distributedSize m dst).2 0⟩).write
            (toBytes 8 (distributedSize m dst).1)))) := rfl
  rw [hpack, allocate, if_pos hsize, hcount]
  exact congrArg Except.ok hcursor

/-- An entry of the map fits in the message that it is a part of. -/
theorem packed_size_lt {m : AddressMap} {dst : Int32} (h : (distributedSize m dst).2 < 2 ^ 63)
    {e : Int32 × ListenerAddress} (he : e ∈ m.others dst) :
    listenerAddressPackedSize e.2 < 2 ^ 63 := by
  obtain ⟨front, back, hsplit⟩ := List.append_of_mem he
  rw [distributed_size_eq, hsplit, List.flatMap_append, List.flatMap_cons] at h
  simp only [List.length_append, ListenerAddress.sized, length_encoding] at h
  omega

theorem unpack_control_distribute (data : Bytes) (s : SharedResources) :
    controlUnpack (toBytes 4 ControlMessage.distributeListenerAddresses.toNat ++ data) s =
      (decodeWord 8 data >>= fun r => readLoop decodeEntry r.1 s r.2 >>= fun r => pure r.1) := by
  have hcontrol : ControlMessage.distributeListenerAddresses.toNat < 256 ^ 4 := by decide
  rw [controlUnpack, (reads_word hcontrol).bind_eq]
  rfl

/-- The receiver registers the entries of the message one after the other. -/
theorem unpack_distributed {m : AddressMap} {dst : Int32} (h : (distributedSize m dst).2 < 2 ^ 63)
    (s : SharedResources) : controlUnpack (distributedMessage m dst) s =
      .ok ((m.others dst).foldl (fun s e => s.registerListenerAddress e.2.rank e.2 rfl) s) := by
  have hentries : ∀ (s : SharedResources) (e : Int32 × ListenerAddress), e ∈ m.others dst →
      Reads (decodeEntry s) e.2.sized (s.registerListenerAddress e.2.rank e.2 rfl) :=
    fun s e he => reads_entry s (packed_size_lt h he)
  have hloop := reads_loop hentries s []
  rw [List.append_nil] at hloop
  rw [distributedMessage, unpack_control_distribute,
    (reads_word (AddressMap.length_others_lt m dst)).bind_eq]
  dsimp only
  rw [hloop]
  rfl

theorem foldl_register (l : List (Int32 × ListenerAddress)) (s : SharedResources) :
    l.foldl (fun s e => s.registerListenerAddress e.2.rank e.2 rfl) s =
      { s with listenerAddresses :=
          l.foldl (fun m e => m.emplace e.2.rank e.2 rfl) s.listenerAddresses } := by
  induction l generalizing s with
  | nil => rfl
  | cons e l ih => exact ih _

/-- A listener address is packed into exactly its size and unpacked as it was. The message with the
addresses of a map is made and filled exactly, and adds to the receiver's map what it does not have
of the entries but for the one of the destination. A message with the address of one rank is made
and registers that address, under the rank that the root assigns or the one that it has. The only
condition is that the bytes fit into a vector. -/
theorem control_round_trip (a : ListenerAddress) (m : AddressMap) (dst : Int32)
    (s : SharedResources) :
    (Fills (listenerAddressPackInto a) a.encoding ∧
      a.encoding.length = listenerAddressPackedSize a ∧
      (listenerAddressPackedSize a < 2 ^ 63 → listenerAddressUnpack a.encoding = .ok a)) ∧
    ((distributedSize m dst).2 < 2 ^ 63 → ∃ c, packDistributed m dst = .ok c ∧
      c.pos = (distributedSize m dst).2 ∧ c.buffer.length = (distributedSize m dst).2 ∧
      ∃ addresses, controlUnpack c.buffer s = .ok { s with listenerAddresses := addresses } ∧
        ∀ r, addresses.get r =
          (s.listenerAddresses.get r).or (if r = dst then none else m.get r)) ∧
    (4 + 8 + listenerAddressPackedSize a < 2 ^ 63 →
      (∃ c, controlPack .queryRank (.listenerAddress a) = .ok c ∧
        c.pos = c.buffer.length ∧
        controlUnpack c.buffer s =
          if s.rank = 0 then
            .ok { s with
              nextRank := s.nextRank + 1
              listenerAddresses :=
                s.listenerAddresses.emplace s.nextRank { a with rank := s.nextRank } rfl
              delayed := s.delayed ++ [s.nextRank] }
          else .error .notRoot) ∧
      ∃ c, controlPack .registerListenerAddress (.listenerAddress a) = .ok c ∧
        c.pos = c.buffer.length ∧
        controlUnpack c.buffer s =
          .ok { s with listenerAddresses := s.listenerAddresses.emplace a.rank a rfl }) := by
  refine ⟨⟨pack_into_fills a, length_encoding a, unpack_encoding⟩, fun hsize => ?_,
    fun hsize => ⟨?_, ?_⟩⟩
  · refine ⟨_, pack_distributed_eq hsize, rfl, length_distributed_message m dst,
      (m.others dst).foldl (fun m e => m.emplace e.2.rank e.2 rfl) s.listenerAddresses, ?_,
      fun r => ?_⟩
    · rw [unpack_distributed hsize, foldl_register]
    · rw [AddressMap.get_foldl_emplace (m.own_others dst), AddressMap.lookup_others]
  · exact ⟨_, control_pack_address (.inl rfl) hsize, (length_message .queryRank a).symm,
      unpack_query (by omega) s⟩
  · exact ⟨_, control_pack_address (.inr rfl) hsize,
      (length_message .registerListenerAddress a).symm, unpack_register (by omega) s⟩

/-- The addresses of three ranks: a worker address and two of a host. -/
def threeAddresses : AddressMap where
  entries := [(2, ⟨.hostPort [98] 443, 2⟩), (0, ⟨.worker [7, 0, 7], 0⟩),
    (1, ⟨.hostPort [97, 98] 8080, 1⟩)]
  nodup := by decide
  own := by decide

/-- Rank 1 knows its own address. -/
def joined : SharedResources where
  rank := 1
  nextRank := 1
  listenerAddresses := ⟨[(1, ⟨.worker [9], 1⟩)], by decide, by decide⟩
  delayed := []

/-- The root before it assigns rank 3. -/
def assigning : SharedResources := ⟨0, 3, threeAddresses, []⟩

/-- Rank 1 learns the addresses of ranks 0 and 2, and keeps its own. A new client is registered
under the rank that the root assigns. -/
theorem control_round_trip_three :
    (∃ c addresses, packDistributed threeAddresses 1 = .ok c ∧
      c.pos = c.buffer.length ∧ c.buffer.length = 66 ∧
      controlUnpack c.buffer joined = .ok { joined with listenerAddresses := addresses } ∧
      addresses.get 0 = some ⟨.worker [7, 0, 7], 0⟩ ∧
      addresses.get 1 = some ⟨.worker [9], 1⟩ ∧
      addresses.get 2 = some ⟨.hostPort [98] 443, 2⟩) ∧
    ∃ c s', controlPack .queryRank (.listenerAddress ⟨.worker [5], -1⟩) = .ok c ∧
      controlUnpack c.buffer assigning = .ok s' ∧ s'.nextRank = 4 ∧ s'.delayed = [3] ∧
      s'.listenerAddresses.get 3 = some ⟨.worker [5], 3⟩ := by
  constructor
  · obtain ⟨-, hdistribute, -⟩ := control_round_trip ⟨.worker [5], -1⟩ threeAddresses 1 joined
    obtain ⟨c, hpack, hpos, hlength, addresses, hunpack, hget⟩ := hdistribute (by decide)
    refine ⟨c, addresses, hpack, hpos.trans hlength.symm, hlength, hunpack, ?_, ?_, ?_⟩
    · rw [hget]
      rfl
    · rw [hget]
      rfl
    · rw [hget]
      rfl
  · obtain ⟨-, -, hregister⟩ := control_round_trip ⟨.worker [5], -1⟩ threeAddresses 1 assigning
    obtain ⟨⟨c, hpack, -, hunpack⟩, -⟩ := hregister (by decide)
    exact ⟨c, _, hpack, hunpack, rfl, rfl, rfl⟩

end Rapidsmpf.Ucxx
