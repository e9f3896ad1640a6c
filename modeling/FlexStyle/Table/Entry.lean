import FlexStyle.Value

/-!
# Entries of a style table

An entry holds the values that were written to one key, and remembers what has happened to it since
its owner last looked. Writes and removals are joined into one event, the net change: what was
created and removed again has not changed at all.

- `Event.onWrite`, `Event.onClear`: how an event grows.
- `Entry.write`, `Entry.clear`: a write and a removal, each with whether it changed the values.
-/

namespace FlexStyle

/-- The change of an entry since its event was last cleared. -/
inductive Event where
  | none
  | created
  | updated
  | removed
  deriving DecidableEq

namespace Event

/-- The event after a write; `hadValue` tells whether the entry held values before. -/
def onWrite (hadValue : Bool) : Event → Event
  | none => if hadValue then updated else created
  | created => created
  | updated => updated
  | removed => updated

/-- The event after a removal of values. -/
def onClear : Event → Event
  | created => none
  | _ => removed

end Event

/-- The values of one key. Without values the entry is removed; it then only keeps its place. -/
structure Entry (κ : Type) where
  key : κ
  values : List Value := []
  event : Event := .none

namespace Entry

variable {κ : Type}

/-- Entries are equal when their values compare as equal. -/
instance [DecidableEq κ] : BEq (Entry κ) :=
  ⟨fun a b => a.key = b.key && a.values == b.values && a.event = b.event⟩

def isRemoved (entry : Entry κ) : Bool := entry.values.isEmpty

/-- Removes the values. -/
def clear (entry : Entry κ) : Entry κ × Bool :=
  if entry.isRemoved then (entry, false)
  else ({ entry with values := [], event := entry.event.onClear }, true)

/-- Stores values, unless they equal those that are stored; no values at all remove the entry. -/
def write (entry : Entry κ) (values : List Value) : Entry κ × Bool :=
  if values.isEmpty then entry.clear
  else if entry.values == values then (entry, false)
  else ({ entry with values, event := entry.event.onWrite !entry.isRemoved }, true)

def clearEvent (entry : Entry κ) : Entry κ := { entry with event := .none }

end Entry

end FlexStyle
