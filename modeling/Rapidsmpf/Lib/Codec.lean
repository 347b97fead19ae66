import Rapidsmpf.Lib.LittleEndian
import Rapidsmpf.Lib.Fallible

/-!
# Writers, readers and self-delimiting encodings

A writer moves a cursor through a buffer that was allocated for it; `Fills f bs` says that it
leaves exactly the bytes `bs` behind, and the rules compose writers in sequence and in loops. A
reader takes a value off the front of a byte string; `Reads p bs a` says that it takes the bytes
`bs` for the value `a`, whatever follows. `Delimits` says that an encoding ends by itself: two
encoded values followed by anything agree only if the values and what follows them do.
-/

namespace Codec

open LittleEndian Fallible

universe u

variable {α β : Type u} {ε : Type}

/-! ## Writers -/

/-- A position in a buffer. -/
structure Cursor where
  pos : Nat
  buffer : List UInt8

/-- Copy bytes to the buffer and move on. -/
def Cursor.write (bs : List UInt8) (c : Cursor) : Cursor :=
  ⟨c.pos + bs.length, writeAt c.pos bs c.buffer⟩

/-- The writer replaces as many bytes as there are in `bs`, by these. -/
def Fills (f : Cursor → Cursor) (bs : List UInt8) : Prop :=
  ∀ front old back : List UInt8, old.length = bs.length →
    f ⟨front.length, front ++ (old ++ back)⟩ = ⟨(front ++ bs).length, front ++ (bs ++ back)⟩

theorem Fills.write (bs : List UInt8) : Fills (Cursor.write bs) bs := by
  intro front old back hold
  rw [Cursor.write, write_at_append rfl hold, List.length_append]

theorem Fills.id : Fills id [] := by
  intro front old back hold
  obtain rfl : old = [] := List.length_eq_zero_iff.mp hold
  simp

/-- Writers one after the other. -/
theorem Fills.comp {f g : Cursor → Cursor} {bs bs' : List UInt8} (hf : Fills f bs)
    (hg : Fills g bs') : Fills (fun c => g (f c)) (bs ++ bs') := by
  intro front old back hold
  rw [List.length_append] at hold
  have htake : (old.take bs.length).length = bs.length := by
    rw [List.length_take]
    omega
  have hdrop : (old.drop bs.length).length = bs'.length := by
    rw [List.length_drop]
    omega
  have hfirst := hf front (old.take bs.length) (old.drop bs.length ++ back) htake
  rw [← List.append_assoc (old.take bs.length), List.take_append_drop] at hfirst
  have hsecond := hg (front ++ bs) (old.drop bs.length) back hdrop
  show g (f _) = _
  rw [hfirst]
  simpa only [List.append_assoc] using hsecond

/-- A loop of writers. -/
theorem Fills.loop {step : α → Cursor → Cursor} {enc : α → List UInt8}
    (hstep : ∀ a, Fills (step a) (enc a)) (l : List α) :
    Fills (fun c => l.foldl (fun c a => step a c) c) (l.flatMap enc) := by
  induction l with
  | nil => exact Fills.id
  | cons a l ih => exact (hstep a).comp ih

/-- A buffer of the right size is filled completely, up to its end. -/
theorem Fills.cursor_eq {f : Cursor → Cursor} {bs : List UInt8} (hf : Fills f bs) {total : Nat}
    (htotal : total = bs.length) : f ⟨0, List.replicate total 0⟩ = ⟨total, bs⟩ := by
  have hfilled := hf [] (List.replicate total 0) [] (by rw [List.length_replicate, htotal])
  rw [List.nil_append, List.append_nil, List.nil_append, List.append_nil] at hfilled
  rw [htotal] at hfilled ⊢
  exact hfilled

theorem Fills.buffer_eq {f : Cursor → Cursor} {bs : List UInt8} (hf : Fills f bs) {total : Nat}
    (htotal : total = bs.length) : (f ⟨0, List.replicate total 0⟩).buffer = bs :=
  congrArg Cursor.buffer (hf.cursor_eq htotal)

/-- The size of a loop of writers, added up in advance. -/
theorem size_loop {size : Nat → α → Nat} {enc : α → List UInt8}
    (h : ∀ n a, size n a = n + (enc a).length) (l : List α) (n : Nat) :
    l.foldl size n = n + (l.flatMap enc).length := by
  induction l generalizing n with
  | nil => rfl
  | cons a l ih =>
      rw [List.foldl_cons, h, ih, List.flatMap_cons, List.length_append, Nat.add_assoc]

/-! ## Readers -/

/-- A reader of a value at the front of a byte string. -/
abbrev Reader (ε : Type) (α : Type u) := List UInt8 → Except ε (α × List UInt8)

/-- The reader takes `bs` for `a`. -/
def Reads (p : Reader ε α) (bs : List UInt8) (a : α) : Prop :=
  ∀ rest, p (bs ++ rest) = .ok (a, rest)

/-- Reading goes on behind what was taken. -/
theorem Reads.bind_eq {p : Reader ε α} {bs : List UInt8} {a : α} (h : Reads p bs a)
    {f : α × List UInt8 → Except ε β} {rest : List UInt8} :
    (p (bs ++ rest) >>= f) = f (a, rest) := by
  rw [h rest]
  rfl

/-- A number of rounds of a loop that reads. -/
def readLoop (step : β → Reader ε β) : Nat → β → Reader ε β
  | 0, b, data => .ok (b, data)
  | n + 1, b, data =>
      match step b data with
      | .error e => .error e
      | .ok (b', data) => readLoop step n b' data

/-- A loop reads the encodings of a list one after the other. -/
theorem reads_loop {step : β → Reader ε β} {enc : α → List UInt8} {next : β → α → β}
    {l : List α} (hstep : ∀ b, ∀ a ∈ l, Reads (step b) (enc a) (next b a)) (b : β) :
    Reads (readLoop step l.length b) (l.flatMap enc) (l.foldl next b) := by
  induction l generalizing b with
  | nil => exact fun _ => rfl
  | cons a l ih =>
      intro rest
      have hrest := ih (fun b a ha => hstep b a (List.mem_cons_of_mem _ ha)) (next b a) rest
      rw [List.flatMap_cons, List.append_assoc, List.length_cons, readLoop,
        hstep b a List.mem_cons_self]
      exact hrest

/-! ## Encodings that end by themselves -/

/-- The values with the property `P` can be told from what follows their encodings. -/
def Delimits (P : α → Prop) (enc : α → List UInt8) : Prop :=
  ∀ a a' : α, P a → P a' → ∀ rest rest', enc a ++ rest = enc a' ++ rest' → a = a' ∧ rest = rest'

/-- What can be read back ends by itself. -/
theorem Delimits.of_reads {P : α → Prop} {enc : α → List UInt8} {p : Reader ε α}
    (h : ∀ a, P a → Reads p (enc a) a) : Delimits P enc := by
  intro a a' ha ha' rest rest' heq
  have hread := h a ha rest
  rw [heq, h a' ha' rest'] at hread
  simpa [eq_comm] using hread

/-- A list of values, if its length is known. -/
theorem Delimits.flatMap {P : α → Prop} {enc : α → List UInt8} (h : Delimits P enc)
    {l l' : List α} (hl : ∀ a ∈ l, P a) (hl' : ∀ a ∈ l', P a) (hlength : l.length = l'.length)
    {rest rest' : List UInt8} (heq : l.flatMap enc ++ rest = l'.flatMap enc ++ rest') :
    l = l' ∧ rest = rest' := by
  induction l generalizing l' with
  | nil =>
      obtain rfl : l' = [] := List.length_eq_zero_iff.mp hlength.symm
      exact ⟨rfl, heq⟩
  | cons a l ih =>
      cases l' with
      | nil => cases hlength
      | cons a' l' =>
          simp only [List.flatMap_cons, List.append_assoc] at heq
          obtain ⟨rfl, hrest⟩ := h a a' (hl a List.mem_cons_self) (hl' a' List.mem_cons_self)
            _ _ heq
          obtain ⟨rfl, rfl⟩ := ih (fun b hb => hl b (List.mem_cons_of_mem _ hb))
            (fun b hb => hl' b (List.mem_cons_of_mem _ hb)) (Nat.succ.inj hlength) hrest
          exact ⟨rfl, rfl⟩

end Codec
