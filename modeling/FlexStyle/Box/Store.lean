import FlexStyle.Box.Style

/-!
# The box store

The store owns the boxes that a layout works on. A box is known by the number of its slot; a slot
that is given up is used again, the one given up last first. Each box has a mark that tells the
layout that its record has changed.

- `BoxStore.create`, `BoxStore.remove`: taking a slot and giving it up.
- `BoxStore.style?`, `BoxStore.modify`, `BoxStore.write`: the record of a box.
- `BoxStore.markDirty`, `BoxStore.takeDirty`: the marks, set one by one and collected all at once.
-/

namespace FlexStyle

/-- The number of a box. -/
structure BoxId where
  number : Nat
  deriving DecidableEq

/-- A box: its record, and whether that changed since the marks were last collected. -/
structure BoxSlot where
  style : BoxStyle
  dirty : Bool
  deriving DecidableEq

/-- The boxes, the slots that are free again, and the record of a new box. -/
structure BoxStore where
  slots : Array (Option BoxSlot)
  free : List Nat
  initial : BoxStyle
  deriving DecidableEq

namespace BoxStore

/-- A store without boxes. -/
def empty (webDefaults : Bool) : BoxStore := ⟨#[], [], .initial webDefaults⟩

/-- The box with a given number. -/
def slot? (store : BoxStore) (id : BoxId) : Option BoxSlot := store.slots[id.number]?.join

/-- The store with a change of one box; nothing happens if there is no such box. -/
def modifySlot (store : BoxStore) (id : BoxId) (change : BoxSlot → BoxSlot) : BoxStore :=
  { store with slots := store.slots.modify id.number (Option.map change) }

/-- Adds a new box, which is marked. -/
def create (store : BoxStore) : BoxId × BoxStore :=
  let box : BoxSlot := ⟨store.initial, true⟩
  match store.free with
  | index :: free =>
    (⟨index⟩, { store with slots := store.slots.setIfInBounds index (some box), free })
  | [] => (⟨store.slots.size⟩, { store with slots := store.slots.push (some box) })

/-- Gives up a box; nothing happens if there is no such box. -/
def remove (store : BoxStore) (id : BoxId) : BoxStore :=
  match store.slot? id with
  | some _ =>
    { store with
      slots := store.slots.setIfInBounds id.number none
      free := id.number :: store.free }
  | none => store

/-- The record of a box. -/
def style? (store : BoxStore) (id : BoxId) : Option BoxStyle := (store.slot? id).map (·.style)

/-- Changes the record of a box. -/
def modify (store : BoxStore) (id : BoxId) (change : BoxStyle → BoxStyle) : BoxStore :=
  store.modifySlot id fun box => { box with style := change box.style }

/-- Gives a box a record, and marks it if that is a change. -/
def write (store : BoxStore) (id : BoxId) (style : BoxStyle) (changed : Bool) : BoxStore :=
  store.modifySlot id fun box => ⟨style, box.dirty || changed⟩

/-- Marks a box. -/
def markDirty (store : BoxStore) (id : BoxId) : BoxStore :=
  store.modifySlot id fun box => { box with dirty := true }

/-- Whether a box is marked. -/
def isDirty (store : BoxStore) (id : BoxId) : Bool := (store.slot? id).any (·.dirty)

/-- The marked boxes in the order of their numbers; no box is marked afterwards. -/
def takeDirty (store : BoxStore) : List BoxId × BoxStore :=
  let ids := (List.range store.slots.size).map BoxId.mk
  (ids.filter store.isDirty,
    { store with slots := store.slots.map (Option.map fun box => { box with dirty := false }) })

/-- The number of boxes. -/
def size (store : BoxStore) : Nat := store.slots.size - store.free.length

def isEmpty (store : BoxStore) : Bool := store.size = 0

end BoxStore

end FlexStyle
