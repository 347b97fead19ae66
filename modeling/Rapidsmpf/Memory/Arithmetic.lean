import Mathlib
import Rapidsmpf.Memory.Resource
import Rapidsmpf.Lib.Transition

/-!
# The arithmetic of reservations

The signed 64-bit operations of `memory_available`, `reserve` and `memory_available_for_reservation`
of `memory/buffer_resource.cpp` and of `spill_to_make_headroom` of `memory/spill_manager.cpp`, in
runs that change the limits, allocate, free and reserve. A call samples the available memory and
goes on under the lock, with other steps in between.

A run ends with an operation whose result does not fit. `exact_iff` says which runs have none:
those whose every step is `Fits`. `overflow_reached` are two runs that do.
-/

namespace Rapidsmpf.Memory.Arithmetic

open Protocol Fallible

/-! ## The code -/

/-- The deficit of `spill_to_make_headroom`, from the memory available for reservation. -/
def deficitOf (headroom available : Int) : Except Failure Nat :=
  if headroom ≤ available then pure 0
  else do
    let deficit ← signed (headroom - available)
    pure deficit.toNat

/-- A call that has sampled the available memory and does not yet hold the lock of the resource. -/
inductive Call where
  | reserve (t : MemoryType) (size : Nat) (allow : AllowOverbooking) (available : Int)
  | availableForReservation (t : MemoryType) (available : Int)
  | spillToMakeHeadroom (headroom available : Int)
deriving DecidableEq

/-- What a call has computed, with the numbers it had. -/
inductive Reply where
  | reserve (available : Int) (reserved size overbooking : Nat)
  | availableForReservation (available : Int) (reserved : Nat) (result : Int)
  | spillToMakeHeadroom (headroom available : Int) (reserved deficit : Nat)

/-- A buffer resource and the calls on it. `replies` records what was computed so far, and
`undefined` that an operation had a result that does not fit. -/
structure State where
  cfg : Config
  allocated : MemoryType → Nat
  reserved : MemoryType → Nat
  calls : List Call
  replies : List Reply
  undefined : Bool

inductive Label where
  | setMemoryLimit (t : MemoryType) (limit : Int)
  | allocate (t : MemoryType) (size : Nat)
  | deallocate (t : MemoryType) (size : Nat)
  /-- The three calls up to the sample. -/
  | reserve (t : MemoryType) (size : Nat) (allow : AllowOverbooking)
  | availableForReservation (t : MemoryType)
  | spillToMakeHeadroom (headroom : Int)
  /-- One of them under the lock. The spill functions deallocate in steps of their own. -/
  | lock (call : Call)
  | release (t : MemoryType) (size : Nat)

/-- A call samples the available memory. -/
def State.sample (s : State) (t : MemoryType) (call : Int → Call) : Except Failure State := do
  let available ← memoryAvailable s.cfg s.allocated t
  pure { s with calls := s.calls ++ [call available] }

/-- A call under the lock. -/
def State.finish (s : State) : Call → Except Failure State
  | .reserve t size allow available => do
      let (granted, overbooking) ← decideReserve available (s.reserved t) size allow
      pure { s with
        reserved := Function.update s.reserved t (s.reserved t + granted)
        replies := s.replies ++ [.reserve available (s.reserved t) size overbooking] }
  | .availableForReservation t available => do
      let result ← availableForReservation available (s.reserved t)
      pure { s with
        replies := s.replies ++ [.availableForReservation available (s.reserved t) result] }
  | .spillToMakeHeadroom headroom available => do
      let reservable ← availableForReservation available (s.reserved .device)
      let deficit ← deficitOf headroom reservable
      pure { s with
        replies := s.replies ++
          [.spillToMakeHeadroom headroom available (s.reserved .device) deficit] }

/-- What a step computes. -/
def State.compute (s : State) : Label → Except Failure State
  | .setMemoryLimit t limit =>
      pure { s with cfg := { s.cfg with limit := Function.update s.cfg.limit t limit } }
  | .allocate t size =>
      pure { s with allocated := Function.update s.allocated t (s.allocated t + size) }
  | .deallocate t size =>
      pure { s with allocated := Function.update s.allocated t (s.allocated t - size) }
  | .reserve t size allow => do
      checkResource s.cfg t
      s.sample t (.reserve t size allow)
  | .availableForReservation t => s.sample t (.availableForReservation t)
  | .spillToMakeHeadroom headroom => s.sample .device (.spillToMakeHeadroom headroom)
  | .lock call => { s with calls := s.calls.erase call }.finish call
  | .release t size =>
      pure { s with reserved := Function.update s.reserved t (s.reserved t - size) }

/-- The state after a step. An exception ends the call. -/
def State.after (s : State) (l : Label) : State :=
  match s.compute l with
  | .ok s' => s'
  | .error .undefined => { s with undefined := true }
  | .error _ =>
      match l with
      | .lock call => { s with calls := s.calls.erase call }
      | _ => s

/-- The values of a `std::int64_t`. -/
def IsInt64 (x : Int) : Prop := -(2 ^ 63) ≤ x ∧ x < 2 ^ 63

instance : DecidablePred IsInt64 := fun x => inferInstanceAs (Decidable (_ ∧ x < 2 ^ 63))

/-- The steps that can be taken: what is allocated fits the counter of the memory resource, and what
is given back was taken before. -/
def State.Enabled (s : State) : Label → Prop
  | .setMemoryLimit _ limit => IsInt64 limit
  | .allocate t size => s.allocated t + size < 2 ^ 63
  | .deallocate t size => size ≤ s.allocated t
  | .reserve _ _ _ => True
  | .availableForReservation _ => True
  | .spillToMakeHeadroom headroom => IsInt64 headroom
  | .lock call => call ∈ s.calls
  | .release t size => size ≤ s.reserved t

/-- The runs of a buffer resource. Nothing is said of what comes after undefined behaviour. -/
def budget : System State Label where
  init s := (∀ t, IsInt64 (s.cfg.limit t)) ∧ (∀ t, s.allocated t = 0) ∧ (∀ t, s.reserved t = 0) ∧
    s.calls = [] ∧ s.replies = [] ∧ s.undefined = false
  step s l s' := s.undefined = false ∧ s.Enabled l ∧ s' = s.after l

/-! ## The arithmetic over the integers -/

/-- The available memory as an integer. -/
def availableBytes (cfg : Config) (allocated : MemoryType → Nat) : MemoryType → Int
  | .device => cfg.limit .device - allocated .device
  | .pinnedHost => if cfg.pinned then cfg.limit .pinnedHost - allocated .pinnedHost else 0
  | .host => cfg.limit .host - allocated .host
  | .disk => if cfg.disk then cfg.limit .disk else 0

/-- The reply is the one over the integers. -/
def Reply.Exact : Reply → Prop
  | .reserve available reserved size overbooking =>
      (overbooking : Int) = max 0 (reserved + size - available)
  | .availableForReservation available reserved result => result = available - reserved
  | .spillToMakeHeadroom headroom available reserved deficit =>
      (deficit : Int) = max 0 (headroom - (available - reserved))

/-- No operation had a result that does not fit, and all replies are exact. -/
def State.Exact (s : State) : Prop := s.undefined = false ∧ ∀ reply ∈ s.replies, reply.Exact

/-- What is to hold of the numbers before a step: the budget less what is allocated, reserved and
asked for is an `int64_t`, and so is what is reserved in total and the deficit. -/
def Fits (s : State) : Label → Prop
  | .reserve t _ _ => -(2 ^ 63) ≤ availableBytes s.cfg s.allocated t
  | .availableForReservation t => -(2 ^ 63) ≤ availableBytes s.cfg s.allocated t
  | .spillToMakeHeadroom _ => -(2 ^ 63) ≤ availableBytes s.cfg s.allocated .device
  | .lock (.reserve t size _ available) =>
      size < 2 ^ 63 → s.reserved t + size < 2 ^ 63 ∧ -(2 ^ 63) < available - (s.reserved t + size)
  | .lock (.availableForReservation t available) => -(2 ^ 63) ≤ available - s.reserved t
  | .lock (.spillToMakeHeadroom headroom available) =>
      -(2 ^ 63) ≤ available - s.reserved .device ∧
        headroom - (available - s.reserved .device) < 2 ^ 63
  | _ => True

/-! ## One operation after the other -/

section Operations

variable {cfg : Config} {allocated : MemoryType → Nat} {t : MemoryType}
  {available headroom x : Int} {reserved size : Nat} {allow : AllowOverbooking} {f : Failure}

theorem signed_of_fits (h : IsInt64 x) : signed x = .ok x := if_pos h

theorem signed_of_not (h : ¬ IsInt64 x) : signed x = .error .undefined := if_neg h

theorem signed_undefined_iff : signed x = .error .undefined ↔ ¬ IsInt64 x := by
  constructor
  · intro h hfits
    rw [signed_of_fits hfits] at h
    cases h
  · exact signed_of_not

/-- The available memory is a difference, or a limit, or zero. -/
theorem memory_available_eq (hlimit : IsInt64 (cfg.limit t)) :
    memoryAvailable cfg allocated t = signed (availableBytes cfg allocated t) := by
  have hzero : IsInt64 0 := by decide
  cases t with
  | device => rfl
  | host => rfl
  | pinnedHost =>
      rw [memoryAvailable, availableBytes]
      split
      · rfl
      · exact (signed_of_fits hzero).symm
  | disk =>
      rw [memoryAvailable, availableBytes]
      refine (signed_of_fits ?_).symm
      split
      · exact hlimit
      · exact hzero

theorem available_bytes_lt (hlimit : IsInt64 (cfg.limit t)) :
    availableBytes cfg allocated t < 2 ^ 63 := by
  obtain ⟨-, hlt⟩ := hlimit
  cases t <;> simp only [availableBytes] <;> (try split) <;> omega

/-- The sample is not defined below the least `int64_t`. -/
theorem memory_available_undefined_iff (hlimit : IsInt64 (cfg.limit t)) :
    memoryAvailable cfg allocated t = .error .undefined ↔
      ¬ -(2 ^ 63) ≤ availableBytes cfg allocated t := by
  have hlt : availableBytes cfg allocated t < 2 ^ 63 := available_bytes_lt hlimit
  rw [memory_available_eq hlimit, signed_undefined_iff, IsInt64, and_iff_left hlt]

/-- An operation in front of others is undefined, or one of these is. -/
theorem signed_bind_undefined_iff {α : Type} {g : Int → Except Failure α} :
    (signed x >>= g) = .error .undefined ↔ ¬ IsInt64 x ∨ g x = .error .undefined := by
  by_cases hfits : IsInt64 x
  · rw [signed_of_fits hfits]
    show g x = _ ↔ _
    simp [hfits]
  · rw [signed_of_not hfits]
    exact ⟨fun _ => .inl hfits, fun _ => rfl⟩

/-- `std::abs` is not defined of the least `int64_t`. -/
theorem overbooking_undefined_iff {α : Type} {g : Nat → Except Failure α} (hx : IsInt64 x)
    (hg : ∀ n, g n ≠ .error .undefined) :
    (overbookingOf x >>= g) = .error .undefined ↔ ¬ -(2 ^ 63) < x := by
  obtain ⟨hlow, -⟩ := hx
  rw [overbookingOf]
  split
  · next hneg =>
      show ((signed (-x) >>= fun missing => pure missing.toNat) >>= g) = _ ↔ _
      rw [bind_assoc, signed_bind_undefined_iff]
      show _ ∨ g (-x).toNat = _ ↔ _
      rw [or_iff_left (hg _), IsInt64]
      omega
  · next hpos =>
      refine ⟨fun h => absurd h (hg 0), fun h => ?_⟩
      omega

/-- The arithmetic of `reserve`: a sum, a difference and an absolute value. -/
theorem decide_reserve_undefined_iff (havailable : IsInt64 available)
    (hreserved : reserved < 2 ^ 63) :
    decideReserve available reserved size allow = .error .undefined ↔
      ¬ (size < 2 ^ 63 → reserved + size < 2 ^ 63 ∧ -(2 ^ 63) < available - (reserved + size)) := by
  have hcast : safeCast reserved = pure (reserved : Int) := if_pos hreserved
  by_cases hsize : size < 2 ^ 63
  · have hcast' : safeCast size = pure (size : Int) := if_pos hsize
    rw [decideReserve, hcast, hcast', pure_bind, pure_bind, signed_bind_undefined_iff,
      signed_bind_undefined_iff]
    by_cases hheadroom : IsInt64 (available - (reserved + size))
    · rw [overbooking_undefined_iff hheadroom fun n => ?_]
      · simp only [IsInt64] at *
        omega
      · split <;> simp [pure, Except.pure]
    · simp only [IsInt64] at *
      omega
  · have hcast' : safeCast size = .error .outOfRange := if_neg hsize
    rw [decideReserve, hcast, hcast']
    refine ⟨fun h => (by cases h), fun h => absurd (fun hlt => absurd hlt hsize) h⟩

theorem available_for_reservation_of_lt (hreserved : reserved < 2 ^ 63) :
    availableForReservation available reserved = signed (available - reserved) := by
  have hcast : safeCast reserved = .ok reserved := if_pos hreserved
  rw [availableForReservation, hcast]
  rfl

/-- Nothing overflows above, as neither a reservation nor an allocation is negative. -/
theorem available_undefined_iff (havailable : IsInt64 available) (hreserved : reserved < 2 ^ 63) :
    availableForReservation available reserved = .error .undefined ↔
      ¬ -(2 ^ 63) ≤ available - reserved := by
  rw [available_for_reservation_of_lt hreserved, signed_undefined_iff]
  rw [IsInt64] at *
  omega

theorem deficit_undefined_iff :
    deficitOf headroom available = .error .undefined ↔ ¬ headroom - available < 2 ^ 63 := by
  rw [deficitOf]
  split
  · next hle =>
      refine ⟨fun h => (by cases h), fun h => ?_⟩
      omega
  · next hgt =>
      rw [signed_bind_undefined_iff, IsInt64]
      simp only [pure, Except.pure, reduceCtorEq, or_false]
      omega

theorem deficit_of_eq_ok {deficit : Nat} (h : deficitOf headroom available = .ok deficit) :
    (deficit : Int) = max 0 (headroom - available) := by
  rw [deficitOf] at h
  split at h
  · next hle =>
      obtain rfl := pure_eq_ok.mp h
      omega
  · next hgt =>
      obtain ⟨x, hx, hpure⟩ := bind_eq_ok.mp h
      obtain rfl := signed_eq_ok hx
      obtain rfl := pure_eq_ok.mp hpure
      omega

end Operations

/-! ## One step -/

/-- The available memory that a call has sampled. -/
def Call.available : Call → Int
  | .reserve _ _ _ available => available
  | .availableForReservation _ available => available
  | .spillToMakeHeadroom _ available => available

/-- What every run keeps until an operation has no meaning. -/
structure Inv (s : State) : Prop where
  limit : ∀ t, IsInt64 (s.cfg.limit t)
  reserved : ∀ t, s.reserved t < 2 ^ 63
  calls : ∀ call ∈ s.calls, IsInt64 call.available
  replies : ∀ reply ∈ s.replies, reply.Exact

section Steps

variable {s s' : State} {l : Label} {t : MemoryType} {call : Call}

/-- A resource that is missing has nothing available. -/
theorem check_resource_eq_error {cfg : Config} {f : Failure} (h : checkResource cfg t = .error f) :
    f ≠ .undefined ∧ ∀ allocated, availableBytes cfg allocated t = 0 := by
  rw [checkResource] at h
  split at h
  · next hdisk =>
      obtain ⟨rfl, hno⟩ := hdisk
      cases h
      exact ⟨by decide, by simp [availableBytes, hno]⟩
  · split at h
    · next hpinned =>
        obtain ⟨rfl, hno⟩ := hpinned
        cases h
        exact ⟨by decide, by simp [availableBytes, hno]⟩
    · cases h

theorem sample_undefined_iff {make : Int → Call} (hi : Inv s) :
    s.sample t make = .error .undefined ↔ ¬ -(2 ^ 63) ≤ availableBytes s.cfg s.allocated t := by
  rw [State.sample, bind_pure_eq_error, memory_available_undefined_iff (hi.limit t)]

/-- A call under the lock computes something undefined exactly if its numbers do not fit. -/
theorem finish_undefined_iff (hi : Inv s) (hcall : IsInt64 call.available) :
    s.finish call = .error .undefined ↔ ¬ Fits s (.lock call) := by
  cases call with
  | reserve t size allow available =>
      have havailable : IsInt64 available := hcall
      rw [State.finish]
      show (_ >>= fun r : Nat × Nat => pure _) = _ ↔ _
      rw [bind_pure_eq_error, decide_reserve_undefined_iff havailable (hi.reserved t)]
      rfl
  | availableForReservation t available =>
      have havailable : IsInt64 available := hcall
      rw [State.finish, bind_pure_eq_error, available_undefined_iff havailable (hi.reserved t)]
      rfl
  | spillToMakeHeadroom headroom available =>
      have hreserved := hi.reserved .device
      rw [State.finish, available_for_reservation_of_lt hreserved, signed_bind_undefined_iff,
        bind_pure_eq_error, deficit_undefined_iff, Fits]
      have hlt : available < 2 ^ 63 := hcall.2
      simp only [IsInt64]
      omega

theorem Inv.erase (hi : Inv s) (call : Call) : Inv { s with calls := s.calls.erase call } :=
  { hi with calls := fun c hc => hi.calls c (List.mem_of_mem_erase hc) }

/-- The steps that compute something undefined. -/
theorem compute_undefined_iff (hi : Inv s) (henabled : s.Enabled l) :
    s.compute l = .error .undefined ↔ ¬ Fits s l := by
  cases l with
  | setMemoryLimit t limit => simp [State.compute, Fits, pure, Except.pure]
  | allocate t size => simp [State.compute, Fits, pure, Except.pure]
  | deallocate t size => simp [State.compute, Fits, pure, Except.pure]
  | release t size => simp [State.compute, Fits, pure, Except.pure]
  | reserve t size allow =>
      rw [State.compute, bind_eq_error, Fits]
      constructor
      · rintro (hcheck | ⟨-, -, hsample⟩)
        · exact absurd rfl (check_resource_eq_error hcheck).1
        · exact (sample_undefined_iff hi).mp hsample
      · intro hlow
        refine .inr ⟨(), ?_, (sample_undefined_iff hi).mpr hlow⟩
        cases hcheck : checkResource s.cfg t with
        | ok => rfl
        | error f =>
            have hzero : availableBytes s.cfg s.allocated t = 0 :=
              (check_resource_eq_error hcheck).2 s.allocated
            omega
  | availableForReservation t => exact sample_undefined_iff hi
  | spillToMakeHeadroom headroom => exact sample_undefined_iff hi
  | lock call =>
      exact finish_undefined_iff (hi.erase call) (hi.calls call henabled)

theorem Inv.update_reserved (hi : Inv s) {n : Nat} (hn : n < 2 ^ 63) :
    Inv { s with reserved := Function.update s.reserved t n } := by
  refine { hi with reserved := fun t' => ?_ }
  show Function.update s.reserved t n t' < 2 ^ 63
  rcases eq_or_ne t' t with rfl | hne
  · rw [Function.update_self]
    exact hn
  · rw [Function.update_of_ne hne]
    exact hi.reserved t'

/-- A call adds its reply. -/
theorem Inv.reply (hi : Inv s) {reply : Reply} (hreply : reply.Exact) :
    Inv { s with replies := s.replies ++ [reply] } := by
  refine { hi with replies := fun r hr => ?_ }
  rcases List.mem_append.mp hr with hr | hr
  · exact hi.replies r hr
  · exact List.mem_singleton.mp hr ▸ hreply

theorem sample_inv {make : Int → Call} (hi : Inv s) (hmake : ∀ a, (make a).available = a)
    (hok : s.sample t make = .ok s') : Inv s' ∧ s'.undefined = s.undefined := by
  obtain ⟨available, havailable, hpure⟩ := bind_eq_ok.mp hok
  obtain rfl := pure_eq_ok.mp hpure
  refine ⟨{ hi with calls := fun call hcall => ?_ }, rfl⟩
  rcases List.mem_append.mp hcall with hcall | hcall
  · exact hi.calls call hcall
  · obtain rfl := List.mem_singleton.mp hcall
    rw [memory_available_eq (hi.limit t)] at havailable
    rw [hmake, signed_eq_ok havailable]
    by_contra hnot
    rw [signed_of_not hnot] at havailable
    cases havailable

/-- A sum that is reserved fits. -/
theorem reserved_of_decide {available : Int} {reserved size : Nat} {allow : AllowOverbooking}
    {granted overbooking : Nat} (hreserved : reserved < 2 ^ 63) (havailable : IsInt64 available)
    (hok : decideReserve available reserved size allow = .ok (granted, overbooking)) :
    reserved + granted < 2 ^ 63 := by
  have hdefined : decideReserve available reserved size allow ≠ .error .undefined := by
    rw [hok]
    simp
  have hfits := not_not.mp (mt (decide_reserve_undefined_iff havailable hreserved).mpr hdefined)
  have hsize : size < 2 ^ 63 := by
    rw [decideReserve] at hok
    obtain ⟨r, -, hok⟩ := bind_eq_ok.mp hok
    obtain ⟨z, hz, -⟩ := bind_eq_ok.mp hok
    by_contra hlarge
    have hthrow : safeCast size = .error .outOfRange := if_neg hlarge
    rw [hthrow] at hz
    cases hz
  obtain ⟨hsum, -⟩ := hfits hsize
  rcases (decide_reserve_eq_ok hok).2 with ⟨rfl, -⟩ | ⟨rfl, -⟩
  · exact hsum
  · exact hreserved

theorem finish_inv (hi : Inv s) (hcall : IsInt64 call.available) (hok : s.finish call = .ok s') :
    Inv s' ∧ s'.undefined = s.undefined := by
  cases call with
  | reserve t size allow available =>
      obtain ⟨⟨granted, overbooking⟩, hdecide, hpure⟩ := bind_eq_ok.mp hok
      obtain rfl := pure_eq_ok.mp hpure
      have hsum := reserved_of_decide (hi.reserved t) hcall hdecide
      exact ⟨(hi.update_reserved hsum).reply (decide_reserve_eq_ok hdecide).1, rfl⟩
  | availableForReservation t available =>
      obtain ⟨result, hresult, hpure⟩ := bind_eq_ok.mp hok
      obtain rfl := pure_eq_ok.mp hpure
      exact ⟨hi.reply (available_for_reservation_eq_ok hresult), rfl⟩
  | spillToMakeHeadroom headroom available =>
      obtain ⟨reservable, hresult, hok⟩ := bind_eq_ok.mp hok
      obtain ⟨deficit, hdeficit, hpure⟩ := bind_eq_ok.mp hok
      obtain rfl := pure_eq_ok.mp hpure
      obtain rfl := available_for_reservation_eq_ok hresult
      exact ⟨hi.reply (deficit_of_eq_ok hdeficit), rfl⟩

theorem compute_inv (hi : Inv s) (henabled : s.Enabled l) (hok : s.compute l = .ok s') :
    Inv s' ∧ s'.undefined = s.undefined := by
  cases l with
  | setMemoryLimit t limit =>
      obtain rfl := pure_eq_ok.mp hok
      refine ⟨{ hi with limit := fun t' => ?_ }, rfl⟩
      show IsInt64 (Function.update s.cfg.limit t limit t')
      rcases eq_or_ne t' t with rfl | hne
      · rw [Function.update_self]
        exact henabled
      · rw [Function.update_of_ne hne]
        exact hi.limit t'
  | allocate t size =>
      obtain rfl := pure_eq_ok.mp hok
      exact ⟨{ hi with }, rfl⟩
  | deallocate t size =>
      obtain rfl := pure_eq_ok.mp hok
      exact ⟨{ hi with }, rfl⟩
  | release t size =>
      obtain rfl := pure_eq_ok.mp hok
      have hless : s.reserved t - size < 2 ^ 63 := (Nat.sub_le _ _).trans_lt (hi.reserved t)
      exact ⟨hi.update_reserved hless, rfl⟩
  | reserve t size allow =>
      obtain ⟨-, -, hok⟩ := bind_eq_ok.mp hok
      exact sample_inv hi (fun _ => rfl) hok
  | availableForReservation t => exact sample_inv hi (fun _ => rfl) hok
  | spillToMakeHeadroom headroom => exact sample_inv hi (fun _ => rfl) hok
  | lock call =>
      have hfinish := finish_inv (hi.erase call) (hi.calls call henabled) hok
      exact hfinish

/-- What one step does: it is undefined, or it keeps the invariant. -/
theorem after_cases (hi : Inv s) (hdefined : s.undefined = false) (henabled : s.Enabled l) :
    (¬ Fits s l ∧ (s.after l).undefined = true) ∨
      (Fits s l ∧ (s.after l).undefined = false ∧ Inv (s.after l)) := by
  unfold State.after
  cases hcompute : s.compute l with
  | ok s' =>
      obtain ⟨hi', hsame⟩ := compute_inv hi henabled hcompute
      have hfits : Fits s l := by
        by_contra hnot
        rw [(compute_undefined_iff hi henabled).mpr hnot] at hcompute
        cases hcompute
      exact .inr ⟨hfits, hsame.trans hdefined, hi'⟩
  | error f =>
      by_cases hf : f = .undefined
      · subst hf
        exact .inl ⟨(compute_undefined_iff hi henabled).mp hcompute, rfl⟩
      · have hfits : Fits s l := by
          by_contra hnot
          rw [(compute_undefined_iff hi henabled).mpr hnot] at hcompute
          exact hf (Except.error.inj hcompute).symm
        have hafter : (s.undefined = false ∧ Inv s) ∧
            ∀ call, s.undefined = false ∧ Inv { s with calls := s.calls.erase call } :=
          ⟨⟨hdefined, hi⟩, fun call => ⟨hdefined, hi.erase call⟩⟩
        refine .inr ⟨hfits, ?_⟩
        cases f with
        | undefined => exact absurd rfl hf
        | _ =>
            cases l with
            | lock call => exact hafter.2 call
            | _ => exact hafter.1

end Steps

/-! ## Runs -/

section Runs

variable {s : State}

theorem inv_initial (h : budget.init s) : Inv s := by
  obtain ⟨hlimit, -, hreserved, hcalls, hreplies, -⟩ := h
  refine ⟨hlimit, fun t => ?_, fun call hcall => ?_, fun reply hreply => ?_⟩
  · rw [hreserved t]
    norm_num
  · rw [hcalls] at hcall
    cases hcall
  · rw [hreplies] at hreply
    cases hreply

/-- A run whose every step fits computes exactly. -/
theorem exact_of_fits (hx : budget.Reach Fits s) : s.undefined = false ∧ Inv s := by
  have hinit : ∀ s, budget.init s → s.undefined = false ∧ Inv s := by
    intro s hs
    obtain ⟨-, -, -, -, -, hdefined⟩ := id hs
    exact ⟨hdefined, inv_initial hs⟩
  refine hx.invariant (I := fun s => s.undefined = false ∧ Inv s) hinit ?_
  rintro s l s' ⟨hdefined, hi⟩ hfits ⟨-, henabled, rfl⟩
  rcases after_cases hi hdefined henabled with ⟨hnot, -⟩ | ⟨-, hafter⟩
  · exact absurd hfits hnot
  · exact hafter

/-- A state is exact exactly if it is reached by a run whose every step fits. -/
theorem exact_iff (hx : budget.Reachable s) : s.Exact ↔ budget.Reach Fits s := by
  constructor
  · rintro ⟨hdefined, -⟩
    refine hx.invariant (I := fun s => s.undefined = false → budget.Reach Fits s) ?_ ?_ hdefined
    · exact fun s hs _ => .init hs
    · rintro s l s' ih ⟨hbefore, henabled, rfl⟩ hafter
      have hreach := ih hbefore
      obtain ⟨-, hi⟩ := exact_of_fits hreach
      rcases after_cases hi hbefore henabled with ⟨-, hundefined⟩ | ⟨hfits, -⟩
      · rw [hafter] at hundefined
        cases hundefined
      · exact hreach.step hfits ⟨hbefore, henabled, rfl⟩
  · intro hreach
    obtain ⟨hdefined, hi⟩ := exact_of_fits hreach
    exact ⟨hdefined, hi.replies⟩

end Runs

/-- A resource with all budgets unlimited, as they are by default. -/
def unlimited : State where
  cfg := ⟨fun _ => 2 ^ 63 - 1, true, true⟩
  allocated := fun _ => 0
  reserved := fun _ => 0
  calls := []
  replies := []
  undefined := false

theorem unlimited_reachable : budget.Reachable unlimited := by
  have hlimit : IsInt64 (2 ^ 63 - 1) := by decide
  exact .of_init ⟨fun _ => hlimit, fun _ => rfl, fun _ => rfl, rfl, rfl, rfl⟩

theorem reachable_after {s : State} (hs : budget.Reachable s) (l : Label)
    (hdefined : s.undefined = false) (henabled : s.Enabled l) : budget.Reachable (s.after l) :=
  hs.next (l := l) ⟨hdefined, henabled, rfl⟩

/-- More is reserved than the budget of eight bytes, and the overbooking is exact. -/
theorem exact_iff_overbooked : ∃ s, budget.Reachable s ∧
    s.replies = [.reserve 8 0 10 2] ∧ (s.Exact ↔ budget.Reach Fits s) := by
  have hint : IsInt64 8 := by decide
  have hlimit := reachable_after unlimited_reachable (.setMemoryLimit .host 8) rfl hint
  have hsample := reachable_after hlimit (.reserve .host 10 .yes) rfl trivial
  have hlock := reachable_after hsample (.lock (.reserve .host 10 .yes 8)) rfl
    (List.mem_singleton.mpr rfl)
  exact ⟨_, hlock, rfl, exact_iff hlock⟩

/-- A second reservation overflows what is reserved of an unlimited budget, and the least limit
overflows as soon as a byte is allocated. -/
theorem overflow_reached :
    (∃ s, budget.Reachable s ∧ (∀ t, s.cfg.limit t = 2 ^ 63 - 1) ∧ ¬ s.Exact) ∧
      ∃ s, budget.Reachable s ∧ (∀ t, s.reserved t = 0) ∧ ¬ s.Exact := by
  constructor
  · have hsample := reachable_after unlimited_reachable (.reserve .host (2 ^ 63 - 1) .no) rfl
      trivial
    have hlock := reachable_after hsample (.lock (.reserve .host (2 ^ 63 - 1) .no (2 ^ 63 - 1))) rfl
      (List.mem_singleton.mpr rfl)
    have hsecond := reachable_after hlock (.reserve .host 1 .no) rfl trivial
    have hlast := reachable_after hsecond (.lock (.reserve .host 1 .no (2 ^ 63 - 1))) rfl
      (List.mem_singleton.mpr rfl)
    exact ⟨_, hlast, fun _ => rfl, fun h => by cases h.1⟩
  · have hint : IsInt64 (-(2 ^ 63)) := by decide
    have hlimit := reachable_after unlimited_reachable (.setMemoryLimit .device (-(2 ^ 63))) rfl
      hint
    have hbyte : 0 + 1 < 2 ^ 63 := by norm_num
    have hallocate := reachable_after hlimit (.allocate .device 1) rfl hbyte
    have hsample := reachable_after hallocate (.availableForReservation .device) rfl trivial
    exact ⟨_, hsample, fun _ => rfl, fun h => by cases h.1⟩

end Rapidsmpf.Memory.Arithmetic
