import Rapidsmpf.Memory.Buffer

/-!
# Messages

`streaming/core/message.hpp` and `memory/content_description.hpp`. A message is a type-erased
payload with a description of the memory it occupies and two optional callbacks. The callbacks are
given by whoever makes the message, so they are a parameter here; `Faithful` is what their
documentation says of them: a copy or a moved message has the same content, and a moved message is
in the memory of the reservation.
-/

namespace Rapidsmpf.Streaming

universe u v

/-- `ContentDescription`: the bytes in each memory type, and whether they can be spilled. -/
structure ContentDescription where
  contentSize : MemoryType → Nat
  spillable : Bool

/-- `Message`. An empty message has no payload. The flags say which callbacks are set. -/
structure Message (α : Type u) where
  payload : Option α
  contentDescription : ContentDescription
  hasCopy : Bool
  hasMove : Bool

/-- `Message::empty`. -/
def Message.empty {α : Type u} (m : Message α) : Bool := m.payload.isNone

/-- `Message::reset`. -/
def Message.reset {α : Type u} (m : Message α) : Message α := { m with payload := none }

/-- `SPILL_TARGET_MEMORY_TYPES`. -/
def spillTargetMemoryTypes : List MemoryType := [.pinnedHost, .host]

/-- The callbacks of the messages, for a reservation of the given memory type. -/
structure Callbacks (α : Type u) where
  copy : MemoryType → Message α → Message α
  move : MemoryType → Message α → Message α

/-- Copying and moving keep the content, and what is moved leaves the device. -/
structure Callbacks.Faithful {α : Type u} {β : Type v} (content : α → β) (cb : Callbacks α) :
    Prop where
  copy_content : ∀ t m, (cb.copy t m).payload.map content = m.payload.map content
  move_content : ∀ t m, (cb.move t m).payload.map content = m.payload.map content
  move_device : ∀ t m, t ≠ .device →
    (cb.move t m).contentDescription.contentSize .device = 0

end Rapidsmpf.Streaming
