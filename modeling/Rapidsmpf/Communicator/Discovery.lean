import Rapidsmpf.Communicator.Connection

/-!
# The ranks and the addresses of a cluster

Which rank and which listener address every process of a cluster has follows from the order in which
the root assigns the ranks. This module has what the control messages do to a rank and to a map of
addresses that is right for such an order.
-/

namespace Rapidsmpf.Ucxx

open LittleEndian Codec Fallible

/-! ## Messages -/

/-- The message that assigns a rank. -/
def assignMessage (rank : Int32) : Bytes :=
  toBytes 4 ControlMessage.assignRank.toNat ++ rankBytes rank

theorem control_pack_rank (rank : Int32) :
    controlPack .assignRank (.rank rank) = .ok ⟨4 + 4, assignMessage rank⟩ := by
  have hfills : Fills (fun c => (c.write (toBytes 4 ControlMessage.assignRank.toNat)).write
      (rankBytes rank)) (assignMessage rank) := (Fills.write _).comp (Fills.write _)
  have hlength : 4 + 4 = (assignMessage rank).length := by
    rw [assignMessage, List.length_append, rankBytes, length_toBytes, length_toBytes]
  have hcursor := hfills.cursor_eq hlength
  rw [← hcursor]
  rfl

theorem unpack_assign (rank : Int32) (s : SharedResources) :
    controlUnpack (assignMessage rank) s = .ok { s with rank } := by
  have hcontrol : ControlMessage.assignRank.toNat < 256 ^ 4 := by decide
  have hrank := reads_rank rank []
  rw [List.append_nil] at hrank
  rw [controlUnpack, assignMessage, (reads_word hcontrol).bind_eq]
  dsimp only
  rw [if_pos rfl, hrank]
  rfl

/-- The message with one address. -/
def addressMessage (control : ControlMessage) (a : ListenerAddress) : Bytes :=
  toBytes 4 control.toNat ++ a.sized

/-- An address of a usual length can be packed. -/
theorem control_pack_address_ok {control : ControlMessage} {a : ListenerAddress}
    (hcontrol : control = .queryRank ∨ control = .registerListenerAddress)
    (h : listenerAddressPackedSize a ≤ 2 ^ 30 + 18) :
    controlPack control (.listenerAddress a) =
      .ok ⟨4 + 8 + listenerAddressPackedSize a, addressMessage control a⟩ :=
  control_pack_address hcontrol (by omega)

theorem length_sized (a : ListenerAddress) : a.sized.length = 8 + listenerAddressPackedSize a := by
  rw [ListenerAddress.sized, List.length_append, length_toBytes, length_encoding]

/-- A map with addresses of a usual length can be packed. -/
theorem distributed_size_lt {a : AddressMap} (dst : Int32) (hcount : a.entries.length ≤ 2 ^ 31)
    (h : ∀ e ∈ a.entries, listenerAddressPackedSize e.2 ≤ 2 ^ 30 + 18) :
    (distributedSize a dst).2 < 2 ^ 63 := by
  have hothers : (a.others dst).length ≤ 2 ^ 31 := (List.length_filter_le _ _).trans hcount
  have hsum : ((a.others dst).flatMap fun e => e.2.sized).length ≤
      (a.others dst).length * (2 ^ 30 + 26) := by
    rw [List.length_flatMap, ← List.length_map (fun e => e.2.sized.length), ← smul_eq_mul]
    refine List.sum_le_card_nsmul _ _ fun n hn => ?_
    obtain ⟨e, he, rfl⟩ := List.mem_map.mp hn
    have hle := h e (List.mem_filter.mp he).1
    rw [length_sized]
    omega
  rw [distributed_size_eq]
  show 4 + 8 + _ < _
  omega

/-! ## Ranks -/

theorem ofNat_inj {j k : Nat} (hj : j < 2 ^ 31) (hk : k < 2 ^ 31)
    (h : Int32.ofNat j = Int32.ofNat k) : j = k := by
  have hint := congrArg Int32.toInt h
  rw [Int32.toInt_ofNat_of_lt hj, Int32.toInt_ofNat_of_lt hk] at hint
  exact Int.ofNat_inj.mp hint

theorem ofNat_ne_neg_one {k : Nat} (hk : k < 2 ^ 31) : Int32.ofNat k ≠ -1 := by
  intro h
  have hint := congrArg Int32.toInt h
  rw [Int32.toInt_ofNat_of_lt hk] at hint
  have hneg : (-1 : Int32).toInt = -1 := by decide
  omega

theorem ofNat_succ (k : Nat) : Int32.ofNat k + 1 = Int32.ofNat (k + 1) :=
  (Int32.ofNat_add k 1).symm

variable {m : Nat} {c : Cluster m} {order : List (Fin m)} {i : Fin m} {j k : Nat}

/-- The listener address that a client reports, with its rank. -/
def Cluster.reported (c : Cluster m) (i : Fin m) (rank : Int32) : ListenerAddress :=
  match c.listener i with
  | some hp => ⟨.hostPort hp.1 hp.2, rank⟩
  | none => ⟨.worker (c.worker i), rank⟩

/-- The listener address of a rank, when the root has assigned the ranks from 1 on in this order. -/
def Cluster.addressOf (c : Cluster m) (order : List (Fin m)) : Nat → Option ListenerAddress
  | 0 => some ⟨.worker c.rootWorker, 0⟩
  | k + 1 => order[k]?.map fun i => c.reported i (.ofNat (k + 1))

theorem Cluster.reported_listener {hp : Bytes × UInt16} (h : c.listener i = some hp)
    (rank : Int32) : c.reported i rank = ⟨.hostPort hp.1 hp.2, rank⟩ := by
  rw [reported, h]

theorem Cluster.reported_worker (h : c.listener i = none) (rank : Int32) :
    c.reported i rank = ⟨.worker (c.worker i), rank⟩ := by
  rw [reported, h]

theorem Cluster.reported_rank (c : Cluster m) (i : Fin m) (rank : Int32) :
    (c.reported i rank).rank = rank := by
  rw [reported]
  split <;> rfl

theorem Cluster.reported_size (c : Cluster m) (i : Fin m) (rank : Int32) :
    listenerAddressPackedSize (c.reported i rank) ≤ 2 ^ 30 + 18 := by
  rw [reported]
  split
  · next hp heq =>
      have hlt := c.listener_lt i hp heq
      show 4 + 8 + hp.1.length + 2 + 4 ≤ _
      omega
  · have hlt := c.worker_lt i
    show 4 + 8 + (c.worker i).length + 4 ≤ _
    omega

/-- An address is that of a rank that was assigned, and has it. -/
theorem Cluster.addressOf_eq_some {a : ListenerAddress} (h : c.addressOf order k = some a) :
    k ≤ order.length ∧ a.rank = .ofNat k ∧ listenerAddressPackedSize a ≤ 2 ^ 30 + 18 := by
  cases k with
  | zero =>
      have hlt := c.rootWorker_lt
      cases Option.some.inj h
      refine ⟨Nat.zero_le _, rfl, ?_⟩
      show 4 + 8 + c.rootWorker.length + 4 ≤ _
      omega
  | succ k =>
      obtain ⟨i, hi, rfl⟩ := Option.map_eq_some_iff.mp h
      obtain ⟨hlt, -⟩ := List.getElem?_eq_some_iff.mp hi
      exact ⟨hlt, c.reported_rank i _, c.reported_size i _⟩

/-- A later assignment changes no address. -/
theorem Cluster.addressOf_concat {a : ListenerAddress} (i : Fin m)
    (h : c.addressOf order k = some a) : c.addressOf (order ++ [i]) k = some a := by
  cases k with
  | zero => exact h
  | succ k =>
      obtain ⟨i', hi', rfl⟩ := Option.map_eq_some_iff.mp h
      obtain ⟨hlt, -⟩ := List.getElem?_eq_some_iff.mp hi'
      rw [addressOf, List.getElem?_append_left hlt, hi']
      rfl

theorem Cluster.addressOf_last (c : Cluster m) (order : List (Fin m)) (i : Fin m) :
    c.addressOf (order ++ [i]) (order.length + 1) =
      some (c.reported i (.ofNat (order.length + 1))) := by
  rw [addressOf, List.getElem?_concat_length]
  rfl

/-! ## Maps of addresses -/

theorem AddressMap.lookup_of_mem {l : List (Int32 × ListenerAddress)}
    {e : Int32 × ListenerAddress} (hnodup : (l.map Prod.fst).Nodup) (he : e ∈ l) :
    l.lookup e.1 = some e.2 := by
  induction l with
  | nil => cases he
  | cons x l ih =>
      rw [List.map_cons, List.nodup_cons] at hnodup
      rw [lookup_eq]
      rcases List.mem_cons.mp he with rfl | he
      · rw [if_pos rfl]
      · have hne : e.1 ≠ x.1 := fun heq => hnodup.1 (heq ▸ List.mem_map_of_mem he)
        rw [if_neg hne]
        exact ih hnodup.2 he

/-- An address that is there is kept. -/
theorem AddressMap.get_emplace_of_some {a : AddressMap} {r : Int32} {x : ListenerAddress}
    (h : a.get r = some x) {rank : Int32} {y : ListenerAddress} {hy : y.rank = rank} :
    (a.emplace rank y hy).get r = some x := by
  rw [get_emplace, h, Option.some_or]

/-- The addresses of a map are those of their ranks. -/
def Cluster.Right (c : Cluster m) (order : List (Fin m)) (a : AddressMap) : Prop :=
  ∀ rank x, a.get rank = some x → ∃ k, rank = .ofNat k ∧ c.addressOf order k = some x

/-- The map has the addresses of all ranks. -/
def Cluster.Complete (c : Cluster m) (order : List (Fin m)) (a : AddressMap) : Prop :=
  ∀ k ≤ m, ∃ x, c.addressOf order k = some x ∧ a.get (.ofNat k) = some x

variable {a : AddressMap} {x : ListenerAddress}

theorem Cluster.Right.concat (h : c.Right order a) (i : Fin m) : c.Right (order ++ [i]) a := by
  intro rank x hx
  obtain ⟨k, hk, haddress⟩ := h rank x hx
  exact ⟨k, hk, addressOf_concat i haddress⟩

theorem Cluster.Complete.concat (h : c.Complete order a) (i : Fin m) :
    c.Complete (order ++ [i]) a := by
  intro k hk
  obtain ⟨x, haddress, hx⟩ := h k hk
  exact ⟨x, addressOf_concat i haddress, hx⟩

theorem length_le_of_nodup (h : order.Nodup) : order.length ≤ m := by
  have hcard := h.length_le_card
  rwa [Fintype.card_fin] at hcard

/-- The address of a rank is registered. -/
theorem Cluster.Right.emplace (h : c.Right order a) (hnodup : order.Nodup) {rank : Int32}
    (hrank : rank = .ofNat k) (haddress : c.addressOf order k = some x) (hx : x.rank = rank) :
    c.Right order (a.emplace rank x hx) ∧
      ∀ q, q = rank → (a.emplace rank x hx).get q = some x := by
  subst hrank
  have hlength := length_le_of_nodup hnodup
  have hmax := c.lt_max
  have hk := (addressOf_eq_some haddress).1
  constructor
  · intro rank y hy
    rw [AddressMap.get_emplace] at hy
    rcases Option.or_eq_some_iff.mp hy with hy | ⟨-, hy⟩
    · exact h rank y hy
    · split at hy
      · next heq =>
          cases hy
          exact ⟨k, heq, haddress⟩
      · cases hy
  · rintro q rfl
    rw [AddressMap.get_emplace, if_pos rfl]
    cases hold : a.get (.ofNat k) with
    | none => rfl
    | some y =>
        obtain ⟨k', hk', haddress'⟩ := h _ y hold
        have hle := (addressOf_eq_some haddress').1
        obtain rfl := ofNat_inj (by omega) (by omega) hk'
        rw [haddress] at haddress'
        exact haddress'.symm

theorem Cluster.Right.size_lt (h : c.Right order a) (hnodup : order.Nodup) (dst : Int32) :
    (distributedSize a dst).2 < 2 ^ 63 := by
  have hlength := length_le_of_nodup hnodup
  have hmax := c.lt_max
  have hentry : ∀ e ∈ a.entries, ∃ k, e.1 = .ofNat k ∧ c.addressOf order k = some e.2 :=
    fun e he => h e.1 e.2 (AddressMap.lookup_of_mem a.nodup he)
  have hsubset : a.entries.map Prod.fst ⊆ (List.range (m + 1)).map Int32.ofNat := by
    intro rank hrank
    obtain ⟨e, he, rfl⟩ := List.mem_map.mp hrank
    obtain ⟨k, hk, haddress⟩ := hentry e he
    have hle := (addressOf_eq_some haddress).1
    rw [hk]
    exact List.mem_map_of_mem (List.mem_range.mpr (by omega))
  have hcount := (a.nodup.subperm hsubset).length_le
  rw [List.length_map, List.length_map, List.length_range] at hcount
  refine distributed_size_lt dst (by omega) fun e he => ?_
  obtain ⟨k, -, haddress⟩ := hentry e he
  exact (addressOf_eq_some haddress).2.2

/-- A right map can be packed. -/
theorem Cluster.Right.pack (h : c.Right order a) (hnodup : order.Nodup) (dst : Int32) :
    packDistributed a dst = .ok ⟨(distributedSize a dst).2, distributedMessage a dst⟩ :=
  pack_distributed_eq (h.size_lt hnodup dst)

/-- The addresses are distributed to a client. -/
theorem unpack_right (h : c.Right order a) (hnodup : order.Nodup) (dst : Int32)
    (s : SharedResources) : ∃ addresses,
      controlUnpack (distributedMessage a dst) s = .ok { s with listenerAddresses := addresses } ∧
        ∀ r, addresses.get r =
          (s.listenerAddresses.get r).or (if r = dst then none else a.get r) := by
  refine ⟨(a.others dst).foldl (fun a e => a.emplace e.2.rank e.2 rfl) s.listenerAddresses, ?_,
    fun r => ?_⟩
  · rw [unpack_distributed (h.size_lt hnodup dst), foldl_register]
  · rw [AddressMap.get_foldl_emplace (a.own_others dst), AddressMap.lookup_others]

/-- The addresses that a process has at its start. -/
theorem get_start (rank r : Int32) (worker : Bytes) :
    (SharedResources.start rank worker).listenerAddresses.get r =
      if r = rank then some ⟨.worker worker, rank⟩ else none := by
  rw [SharedResources.start, AddressMap.get_emplace]
  rfl

end Rapidsmpf.Ucxx
