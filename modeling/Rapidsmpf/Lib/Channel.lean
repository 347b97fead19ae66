import Mathlib

/-!
# First-in first-out channels with their history

A channel keeps every message ever sent on it, in order, and one entry for every receive that was
ever posted on it. The `i`-th receive is matched with the `i`-th message, whichever of the two
comes first: this is what a communicator without message overtaking provides for one source, one
destination and one tag. Both sides carry a stamp of type `τ` (for instance the collective a
message or a receive belongs to); no operation reads a stamp, so that "a receive got the message
meant for it" is a statement about stamps, `Channel.Aligned`.
-/

namespace Protocol

universe u v

/-- The history of a channel: what was sent, and the stamps of the receives posted so far. -/
structure Channel (τ : Type u) (α : Type v) where
  sent : List (τ × α)
  taken : List τ

namespace Channel

variable {τ : Type u} {α : Type v} {c : Channel τ α} {t : τ} {a : α}

/-- The channel nothing was sent on and no receive was posted on. -/
def empty : Channel τ α := ⟨[], []⟩

/-- Append a message. -/
def send (t : τ) (a : α) (c : Channel τ α) : Channel τ α :=
  { c with sent := c.sent ++ [(t, a)] }

/-- Append a batch of messages. -/
def sendAll (msgs : List (τ × α)) (c : Channel τ α) : Channel τ α :=
  { c with sent := c.sent ++ msgs }

/-- Post a receive; it is matched with the message of the same position. -/
def post (t : τ) (c : Channel τ α) : Channel τ α :=
  { c with taken := c.taken ++ [t] }

/-- The position of the next receive to be posted. -/
def matched (c : Channel τ α) : Nat := c.taken.length

/-- The message the next receive is matched with, if it was already sent. -/
def next? (c : Channel τ α) : Option (τ × α) := c.sent[c.matched]?

/-- The content of the message at a position. -/
def content? (c : Channel τ α) (i : Nat) : Option α := c.sent[i]?.map Prod.snd

/-- Every receive is matched with a message of its own stamp. -/
def Aligned (c : Channel τ α) : Prop :=
  ∀ (i : Nat) (x : τ × α) (t : τ), c.sent[i]? = some x → c.taken[i]? = some t → x.1 = t

@[simp] theorem sent_empty : (empty : Channel τ α).sent = [] := rfl
@[simp] theorem taken_empty : (empty : Channel τ α).taken = [] := rfl
@[simp] theorem sent_send : (c.send t a).sent = c.sent ++ [(t, a)] := rfl
@[simp] theorem taken_send : (c.send t a).taken = c.taken := rfl
@[simp] theorem sent_sendAll (msgs : List (τ × α)) :
    (c.sendAll msgs).sent = c.sent ++ msgs := rfl
@[simp] theorem taken_sendAll (msgs : List (τ × α)) : (c.sendAll msgs).taken = c.taken := rfl
@[simp] theorem sent_post : (c.post t).sent = c.sent := rfl
@[simp] theorem taken_post : (c.post t).taken = c.taken ++ [t] := rfl
@[simp] theorem matched_empty : (empty : Channel τ α).matched = 0 := rfl
@[simp] theorem matched_send : (c.send t a).matched = c.matched := rfl
@[simp] theorem matched_sendAll (msgs : List (τ × α)) :
    (c.sendAll msgs).matched = c.matched := rfl
@[simp] theorem matched_post : (c.post t).matched = c.matched + 1 := by
  simp [matched]

end Channel

end Protocol
