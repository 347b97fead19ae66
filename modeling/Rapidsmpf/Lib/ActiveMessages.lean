import Mathlib

/-!
# Ordered links with active messages

A link carries control messages, which the receiver hands to a callback when it processes them, and
plain messages, which it matches with the receives it has posted. Both are processed in the order in
which they were sent, and the plain ones are matched in that order too. A plain message carries a
stamp that no operation reads, so that "a receive got the message meant for it" is a statement about
stamps.
-/

namespace Protocol

universe u v

/-- A message: a control message with its content, or a plain one with its stamp. -/
inductive ActiveMessage (κ : Type u) (τ : Type v) where
  | control (content : κ)
  | plain (stamp : τ)
deriving DecidableEq

/-- The stamp of a plain message. -/
def ActiveMessage.stamp? {κ : Type u} {τ : Type v} : ActiveMessage κ τ → Option τ
  | .control _ => none
  | .plain stamp => some stamp

/-- The history of a link: what was sent, how many messages the receiver has processed, and how many
of its receives are complete. -/
structure ActiveLink (κ : Type u) (τ : Type v) where
  sent : List (ActiveMessage κ τ)
  processed : Nat
  received : Nat

namespace ActiveLink

variable {κ : Type u} {τ : Type v} {l : ActiveLink κ τ} {m : ActiveMessage κ τ} {stamp : τ}

/-- The link nothing was sent on. -/
def empty : ActiveLink κ τ := ⟨[], 0, 0⟩

/-- Append a message. -/
def send (m : ActiveMessage κ τ) (l : ActiveLink κ τ) : ActiveLink κ τ :=
  { l with sent := l.sent ++ [m] }

/-- The message that is processed next. -/
def next? (l : ActiveLink κ τ) : Option (ActiveMessage κ τ) := l.sent[l.processed]?

/-- The next message is processed. -/
def process (l : ActiveLink κ τ) : ActiveLink κ τ := { l with processed := l.processed + 1 }

/-- The stamps of the plain messages that were sent. -/
def plains (l : ActiveLink κ τ) : List τ := l.sent.filterMap ActiveMessage.stamp?

/-- The stamps of the plain messages that were processed. -/
def arrived (l : ActiveLink κ τ) : List τ :=
  (l.sent.take l.processed).filterMap ActiveMessage.stamp?

/-- The stamp of the message that the next receive gets, if that message was processed. -/
def matched? (l : ActiveLink κ τ) : Option τ := l.arrived[l.received]?

/-- The next receive is complete. -/
def receive (l : ActiveLink κ τ) : ActiveLink κ τ := { l with received := l.received + 1 }

@[simp] theorem sent_send (m : ActiveMessage κ τ) (l : ActiveLink κ τ) :
    (l.send m).sent = l.sent ++ [m] := rfl
@[simp] theorem processed_send (m : ActiveMessage κ τ) (l : ActiveLink κ τ) :
    (l.send m).processed = l.processed := rfl
@[simp] theorem received_send (m : ActiveMessage κ τ) (l : ActiveLink κ τ) :
    (l.send m).received = l.received := rfl
@[simp] theorem sent_process (l : ActiveLink κ τ) : l.process.sent = l.sent := rfl
@[simp] theorem processed_process (l : ActiveLink κ τ) :
    l.process.processed = l.processed + 1 := rfl
@[simp] theorem received_process (l : ActiveLink κ τ) : l.process.received = l.received := rfl
@[simp] theorem sent_receive (l : ActiveLink κ τ) : l.receive.sent = l.sent := rfl
@[simp] theorem processed_receive (l : ActiveLink κ τ) : l.receive.processed = l.processed := rfl
@[simp] theorem received_receive (l : ActiveLink κ τ) : l.receive.received = l.received + 1 := rfl

/-- No more is processed than was sent, and no more is received than was processed. -/
structure Valid (l : ActiveLink κ τ) : Prop where
  processed_le : l.processed ≤ l.sent.length
  received_le : l.received ≤ l.arrived.length

theorem Valid.empty : (empty : ActiveLink κ τ).Valid := ⟨Nat.le_refl _, Nat.le_refl _⟩

/-- What was processed is the first part of what was sent. -/
theorem arrived_front (l : ActiveLink κ τ) : l.arrived <+: l.plains := by
  have hfront := List.take_prefix l.processed l.sent
  exact hfront.filterMap _

theorem arrived_send (hl : l.Valid) (m : ActiveMessage κ τ) : (l.send m).arrived = l.arrived := by
  rw [arrived, arrived, sent_send, processed_send, List.take_append_of_le_length hl.processed_le]

theorem Valid.send (hl : l.Valid) (m : ActiveMessage κ τ) : (l.send m).Valid where
  processed_le := by
    rw [sent_send, processed_send, List.length_append]
    exact Nat.le_add_right_of_le hl.processed_le
  received_le := by
    rw [arrived_send hl, received_send]
    exact hl.received_le

/-- Processing a message adds it to those that have arrived. -/
theorem arrived_process (hnext : l.next? = some m) :
    l.process.arrived = l.arrived ++ m.stamp?.toList := by
  obtain ⟨hlt, hm⟩ := List.getElem?_eq_some_iff.mp hnext
  rw [arrived, arrived, sent_process, processed_process, ← List.take_append_getElem hlt,
    List.filterMap_append, hm]
  cases m with
  | control content => rfl
  | plain stamp => rfl

theorem Valid.process (hl : l.Valid) (hnext : l.next? = some m) : l.process.Valid where
  processed_le := by
    obtain ⟨hlt, -⟩ := List.getElem?_eq_some_iff.mp hnext
    exact hlt
  received_le := by
    rw [arrived_process hnext, received_process, List.length_append]
    exact Nat.le_add_right_of_le hl.received_le

theorem Valid.receive (hl : l.Valid) (hmatched : l.matched? = some stamp) : l.receive.Valid where
  processed_le := hl.processed_le
  received_le := (List.getElem?_eq_some_iff.mp hmatched).1

/-- A receive gets the plain message of its position. -/
theorem plains_of_matched (hmatched : l.matched? = some stamp) :
    l.plains[l.received]? = some stamp := by
  obtain ⟨hlt, -⟩ := List.getElem?_eq_some_iff.mp hmatched
  obtain ⟨later, hlater⟩ := arrived_front l
  rw [← hlater, List.getElem?_append_left hlt]
  exact hmatched

/-- Messages that were received were sent. -/
theorem Valid.received_le_plains (hl : l.Valid) : l.received ≤ l.plains.length :=
  Nat.le_trans hl.received_le (arrived_front l).length_le

/-- When some plain message was received, the control messages in front of it were processed. -/
theorem Valid.processed_of_received {front back : List (ActiveMessage κ τ)} (hl : l.Valid)
    (hsent : l.sent = front ++ back)
    (hreceived : (front.filterMap ActiveMessage.stamp?).length < l.received) :
    front.length < l.processed := by
  by_contra hle
  have hsub : l.arrived.length ≤ (front.filterMap ActiveMessage.stamp?).length := by
    rw [arrived, hsent, List.take_append_of_le_length (Nat.le_of_not_lt hle)]
    exact ((List.take_sublist _ _).filterMap _).length_le
  exact absurd (Nat.lt_of_lt_of_le hreceived hl.received_le) (Nat.not_lt_of_le hsub)

end ActiveLink

end Protocol
