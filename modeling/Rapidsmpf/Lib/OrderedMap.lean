import Mathlib
import Rapidsmpf.Lib.Fallible

/-!
# Maps in the order of their keys

A map whose entries are sorted by their keys, so that it is known by what is found in it (`ext`).
`update` sets the value of one key to a function of what was there. The loops over the entries of
one map that update another, key by key, have each their rule: `lookup_foldl_update` says what is
found after the loop, and `foldlM_eq_ok` which of the loops that check an entry before they update
succeed.
-/

open Fallible

universe u v w

/-- Entries sorted by their keys. -/
structure OrderedMap (κ : Type u) (β : Type v) [LinearOrder κ] where
  entries : List (κ × β)
  sorted : (entries.map Prod.fst).Pairwise (· < ·)

namespace OrderedMap

variable {κ : Type u} {β : Type v} [LinearOrder κ]

/-- The map without entries. -/
def empty : OrderedMap κ β := ⟨[], .nil⟩

/-- What is found under a key. -/
def lookup (m : OrderedMap κ β) (k : κ) : Option β := m.entries.lookup k

@[simp] theorem lookup_empty (k : κ) : (empty : OrderedMap κ β).lookup k = none := rfl

/-- Set the value of a key in a list of entries. -/
def insertEntry (k : κ) (b : β) : List (κ × β) → List (κ × β)
  | [] => [(k, b)]
  | (k', b') :: l =>
      if k < k' then (k, b) :: (k', b') :: l
      else if k' < k then (k', b') :: insertEntry k b l
      else (k, b) :: l

theorem mem_keys_insert_entry {k k' : κ} {b : β} {l : List (κ × β)}
    (h : k' ∈ (insertEntry k b l).map Prod.fst) : k' = k ∨ k' ∈ l.map Prod.fst := by
  induction l with
  | nil => exact .inl (List.mem_singleton.mp h)
  | cons e l ih =>
      rw [insertEntry] at h
      split at h
      · exact List.mem_cons.mp h
      · split at h
        · rcases List.mem_cons.mp h with rfl | h
          · exact .inr List.mem_cons_self
          · exact (ih h).imp id (List.mem_cons_of_mem _)
        · exact (List.mem_cons.mp h).imp id (List.mem_cons_of_mem _)

theorem insert_entry_sorted {k : κ} {b : β} {l : List (κ × β)}
    (h : (l.map Prod.fst).Pairwise (· < ·)) :
    ((insertEntry k b l).map Prod.fst).Pairwise (· < ·) := by
  induction l with
  | nil => exact List.pairwise_singleton _ _
  | cons e l ih =>
      obtain ⟨hhead, hrest⟩ := List.pairwise_cons.mp h
      rw [insertEntry]
      split
      case isTrue hlt =>
        refine List.pairwise_cons.mpr ⟨fun k' hk' => ?_, h⟩
        rcases List.mem_cons.mp hk' with rfl | hk'
        · exact hlt
        · exact hlt.trans (hhead k' hk')
      case isFalse hnlt =>
        split
        case isTrue hlt =>
          refine List.pairwise_cons.mpr ⟨fun k' hk' => ?_, ih hrest⟩
          rcases mem_keys_insert_entry hk' with rfl | hk'
          · exact hlt
          · exact hhead k' hk'
        case isFalse hngt =>
          obtain rfl : k = e.1 := le_antisymm (not_lt.mp hngt) (not_lt.mp hnlt)
          exact List.pairwise_cons.mpr ⟨hhead, hrest⟩

/-- Set the value of a key. -/
def insert (m : OrderedMap κ β) (k : κ) (b : β) : OrderedMap κ β :=
  ⟨insertEntry k b m.entries, insert_entry_sorted m.sorted⟩

@[simp] theorem lookup_insert_self (m : OrderedMap κ β) (k : κ) (b : β) :
    (m.insert k b).lookup k = some b := by
  show (insertEntry k b m.entries).lookup k = some b
  induction m.entries with
  | nil => simp [insertEntry]
  | cons e l ih =>
      rw [insertEntry]
      split
      · simp
      · split
        case isTrue hlt => rw [List.lookup_cons, beq_false_of_ne hlt.ne', ih]
        case isFalse => simp

theorem lookup_insert_of_ne (m : OrderedMap κ β) {k k' : κ} (h : k' ≠ k) (b : β) :
    (m.insert k b).lookup k' = m.lookup k' := by
  show (insertEntry k b m.entries).lookup k' = m.entries.lookup k'
  have hbeq : (k' == k) = false := beq_false_of_ne h
  induction m.entries with
  | nil => rw [insertEntry, List.lookup_cons, hbeq]
  | cons e l ih =>
      rw [insertEntry]
      split
      · rw [List.lookup_cons, hbeq]
      · split
        · rw [List.lookup_cons, List.lookup_cons, ih]
        case isFalse hnlt hngt =>
          obtain rfl : k = e.1 := le_antisymm (not_lt.mp hngt) (not_lt.mp hnlt)
          rw [List.lookup_cons, List.lookup_cons, hbeq]

/-! ## Entries and lookups -/

theorem lookup_eq_none_of_lt {l : List (κ × β)} {k : κ} (h : ∀ k' ∈ l.map Prod.fst, k < k') :
    l.lookup k = none := by
  induction l with
  | nil => rfl
  | cons e l ih =>
      have hne : k ≠ e.1 := (h e.1 List.mem_cons_self).ne
      rw [List.lookup_cons, beq_false_of_ne hne]
      exact ih fun k' hk' => h k' (List.mem_cons_of_mem _ hk')

theorem mem_iff_lookup {l : List (κ × β)} (h : (l.map Prod.fst).Pairwise (· < ·)) {k : κ} {b : β} :
    (k, b) ∈ l ↔ l.lookup k = some b := by
  induction l with
  | nil => simp
  | cons e l ih =>
      obtain ⟨hhead, hrest⟩ := List.pairwise_cons.mp h
      rw [List.mem_cons, List.lookup_cons, ih hrest]
      by_cases hk : k = e.1
      · subst hk
        simp [lookup_eq_none_of_lt hhead, Prod.ext_iff, eq_comm]
      · simp [hk, Prod.ext_iff, beq_false_of_ne hk]

/-- The entries of a map are what is found in it. -/
theorem mem_entries {m : OrderedMap κ β} {k : κ} {b : β} :
    (k, b) ∈ m.entries ↔ m.lookup k = some b :=
  mem_iff_lookup m.sorted

/-- Maps in which the same is found are the same. -/
theorem ext {m m' : OrderedMap κ β} (h : ∀ k, m.lookup k = m'.lookup k) : m = m' := by
  have hmem : ∀ e, e ∈ m.entries ↔ e ∈ m'.entries := by
    intro e
    rw [mem_entries, mem_entries, h]
  have hsorted : ∀ m : OrderedMap κ β, m.entries.Pairwise fun e e' => e.1 < e'.1 :=
    fun m => List.pairwise_map.mp m.sorted
  have hnodup : ∀ m : OrderedMap κ β, m.entries.Nodup :=
    fun m => (hsorted m).imp fun hlt heq => absurd (congrArg Prod.fst heq) hlt.ne
  have hperm := (List.perm_ext_iff_of_nodup (hnodup m) (hnodup m')).mpr hmem
  have hentries : m.entries = m'.entries :=
    hperm.eq_of_pairwise (fun _ _ _ _ hlt hgt => absurd hlt hgt.asymm) (hsorted m) (hsorted m')
  cases m
  cases m'
  congr

/-- Setting a value that is there already. -/
theorem insert_of_lookup {m : OrderedMap κ β} {k : κ} {b : β} (h : m.lookup k = some b) :
    m.insert k b = m := by
  refine ext fun k' => ?_
  by_cases hk : k' = k
  · rw [hk, lookup_insert_self, h]
  · exact lookup_insert_of_ne m hk b

/-! ## Updates -/

/-- Set the value of a key to a function of what was there. -/
def update (m : OrderedMap κ β) (k : κ) (f : Option β → β) : OrderedMap κ β :=
  m.insert k (f (m.lookup k))

@[simp] theorem lookup_update_self (m : OrderedMap κ β) (k : κ) (f : Option β → β) :
    (m.update k f).lookup k = some (f (m.lookup k)) :=
  lookup_insert_self m k _

theorem lookup_update_of_ne (m : OrderedMap κ β) {k k' : κ} (h : k' ≠ k) (f : Option β → β) :
    (m.update k f).lookup k' = m.lookup k' :=
  lookup_insert_of_ne m h _

variable {γ ε : Type w}

theorem lookup_foldl_entries {g : γ → Option β → β} {l : List (κ × γ)}
    (h : (l.map Prod.fst).Pairwise (· < ·)) (m : OrderedMap κ β) (k : κ) :
    (l.foldl (fun m e => m.update e.1 (g e.2)) m).lookup k =
      (l.lookup k).elim (m.lookup k) fun c => some (g c (m.lookup k)) := by
  induction l generalizing m with
  | nil => rfl
  | cons e l ih =>
      obtain ⟨hhead, hrest⟩ := List.pairwise_cons.mp h
      rw [List.foldl_cons, ih hrest, List.lookup_cons]
      by_cases hk : k = e.1
      · subst hk
        simp [lookup_eq_none_of_lt hhead]
      · rw [beq_false_of_ne hk, lookup_update_of_ne m hk]

/-- Loop rule: every entry of one map updates another. -/
theorem lookup_foldl_update (g : γ → Option β → β) (m : OrderedMap κ β) (m' : OrderedMap κ γ)
    (k : κ) : (m'.entries.foldl (fun m e => m.update e.1 (g e.2)) m).lookup k =
      (m'.lookup k).elim (m.lookup k) fun c => some (g c (m.lookup k)) :=
  lookup_foldl_entries m'.sorted m k

/-- Loop rule: every entry of one map is checked against another, and updates it. The loop does not
fail exactly when the entries fit what the map held in the beginning. -/
theorem foldlM_eq_ok {step : OrderedMap κ β → κ × γ → Except ε (OrderedMap κ β)}
    {R : β → γ → Prop} {g : γ → Option β → β}
    (hstep : ∀ m e m₁, step m e = .ok m₁ ↔
      (∀ b, m.lookup e.1 = some b → R b e.2) ∧ m₁ = m.update e.1 (g e.2))
    {m r : OrderedMap κ β} {m' : OrderedMap κ γ} :
    m'.entries.foldlM step m = .ok r ↔
      (∀ k b c, m.lookup k = some b → m'.lookup k = some c → R b c) ∧
        r = m'.entries.foldl (fun m e => m.update e.1 (g e.2)) m := by
  suffices h : ∀ (l : List (κ × γ)) (m : OrderedMap κ β), (l.map Prod.fst).Pairwise (· < ·) →
      (l.foldlM step m = .ok r ↔ (∀ e ∈ l, ∀ b, m.lookup e.1 = some b → R b e.2) ∧
        r = l.foldl (fun m e => m.update e.1 (g e.2)) m) by
    rw [h m'.entries m m'.sorted]
    refine and_congr_left fun _ => ⟨fun hfit k b c hb hc => ?_, fun hfit e he b hb => ?_⟩
    · exact hfit (k, c) (mem_entries.mpr hc) b hb
    · exact hfit e.1 b e.2 hb (mem_entries.mp he)
  intro l
  induction l with
  | nil =>
      intro m _
      rw [List.foldlM_nil, pure_eq_ok, List.foldl_nil]
      simp [eq_comm]
  | cons e l ih =>
      intro m hsorted
      obtain ⟨hhead, hrest⟩ := List.pairwise_cons.mp hsorted
      -- the other entries have other keys
      have hothers : ∀ e' ∈ l, (m.update e.1 (g e.2)).lookup e'.1 = m.lookup e'.1 :=
        fun e' he' => lookup_update_of_ne m (hhead e'.1 (List.mem_map_of_mem he')).ne' _
      rw [List.foldlM_cons, bind_eq_ok, List.foldl_cons, List.forall_mem_cons]
      constructor
      · rintro ⟨m₁, hone, hloop⟩
        obtain ⟨hfit, rfl⟩ := (hstep m e m₁).mp hone
        obtain ⟨hfits, hr⟩ := (ih _ hrest).mp hloop
        exact ⟨⟨hfit, fun e' he' b hb => hfits e' he' b (by rw [hothers e' he', hb])⟩, hr⟩
      · rintro ⟨⟨hfit, hfits⟩, hr⟩
        refine ⟨_, (hstep m e _).mpr ⟨hfit, rfl⟩, (ih _ hrest).mpr ⟨fun e' he' b hb => ?_, hr⟩⟩
        rw [hothers e' he'] at hb
        exact hfits e' he' b hb

end OrderedMap

/-! ## Byte strings as keys -/

namespace ByteOrder

theorem byte_lt_iff (a b : UInt8) : a < b ↔ a ≤ b ∧ ¬ b ≤ a := by
  simp only [UInt8.lt_iff_toNat_lt, UInt8.le_iff_toNat_le]
  omega

/-- Bytes in their order; lists of bytes are compared byte by byte. -/
scoped instance byteOrder : LinearOrder UInt8 where
  le_refl := UInt8.le_refl
  le_trans _ _ _ := UInt8.le_trans
  lt_iff_le_not_ge := byte_lt_iff
  le_antisymm _ _ := UInt8.le_antisymm
  le_total := UInt8.le_total
  toDecidableLE := inferInstance
  toDecidableEq := inferInstance
  toDecidableLT := inferInstance

end ByteOrder
