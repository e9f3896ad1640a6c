import FlexStyle.Change
import FlexStyle.Table.Entry

/-!
# Style tables

A table keeps the entries of one node in three groups. A later group outranks an earlier one, and
within a group the entry that was written last outranks the others; every write therefore moves
its entry to the back of the group, also when the values stay the same. A removal does not.

- `Table.list`: all entries in the order in which they are applied.
- `Table.touch`, `Table.set`, `Table.remove`, `Table.clear`, `Table.copyFrom`: the changes, each
  with whether it changed any values.
- `Table.find?`, `Table.cascaded?`: the entry of a key in a group, and the live one that counts.
-/

namespace FlexStyle

/-- The groups of a table. -/
inductive Group where
  /-- Defaults of the host. -/
  | preset
  /-- Rules that are shared. -/
  | sheet
  /-- What is set on one node. -/
  | inline
  deriving DecidableEq

namespace Group

/-- The order of application, from the lowest rank to the highest. -/
def applicationOrder : List Group := [preset, sheet, inline]

/-- The order in which the value that counts is looked up. -/
def cascadeOrder : List Group := [inline, sheet, preset]

/-- Whether a choice of one group, or of all, includes a group. -/
def isIn (choice : Option Group) (g : Group) : Bool := choice.all (· = g)

end Group

/-- The entries of the three groups, each in the order of writing. -/
structure Table (κ : Type) where
  preset : List (Entry κ) := []
  sheet : List (Entry κ) := []
  inline : List (Entry κ) := []

namespace Table

variable {κ : Type}

instance [DecidableEq κ] : BEq (Table κ) :=
  ⟨fun s t => s.preset == t.preset && s.sheet == t.sheet && s.inline == t.inline⟩

/-- The entries of a group. -/
def entries (t : Table κ) : Group → List (Entry κ)
  | .preset => t.preset
  | .sheet => t.sheet
  | .inline => t.inline

/-- The table with other entries in one group. -/
def withEntries (t : Table κ) (g : Group) (entries : List (Entry κ)) : Table κ :=
  match g with
  | .preset => { t with preset := entries }
  | .sheet => { t with sheet := entries }
  | .inline => { t with inline := entries }

/-- All entries with their groups, in the order of application. -/
def list (t : Table κ) : List (Group × Entry κ) :=
  Group.applicationOrder.flatMap fun g => (t.entries g).map (g, ·)

/-- The entries of a group that hold values. -/
def live (t : Table κ) (g : Group) : List (Entry κ) := (t.entries g).filter (!·.isRemoved)

/-- Forgets all events. -/
def clearEvents (t : Table κ) : Table κ where
  preset := t.preset.map Entry.clearEvent
  sheet := t.sheet.map Entry.clearEvent
  inline := t.inline.map Entry.clearEvent

/-- Whether some entry has changed since the events were last cleared. -/
def hasPendingEvents (t : Table κ) : Bool := t.list.any fun (_, entry) => entry.event != .none

/-- Removes the values of one group, or of all. -/
def clear (t : Table κ) (choice : Option Group) : Table κ × Bool :=
  let groups := Group.applicationOrder.filter (·.isIn choice)
  (groups.foldl (fun t g => t.withEntries g ((t.entries g).map (·.clear.1))) t,
    groups.any fun g => !(t.live g).isEmpty)

variable [DecidableEq κ]

/-- The entry of a key in a group, removed or not. -/
def find? (t : Table κ) (g : Group) (key : κ) : Option (Entry κ) :=
  (t.entries g).find? (·.key = key)

/-- The live entry of a key in the highest group that has one. -/
def cascaded? (t : Table κ) (key : κ) : Option (Group × Entry κ) :=
  Group.cascadeOrder.findSome? fun g => ((t.find? g key).filter (!·.isRemoved)).map (g, ·)

/-- The entry of a key in a group; one without values if the group has none. -/
def entry (t : Table κ) (g : Group) (key : κ) : Entry κ := (t.find? g key).getD { key }

/-- Changes the entry of a key and moves it to the back of its group. -/
def touch (t : Table κ) (g : Group) (key : κ) (change : Entry κ → Entry κ × Bool) :
    Table κ × Bool :=
  let (entry, changed) := change (t.entry g key)
  (t.withEntries g ((t.entries g).eraseP (·.key = key) ++ [entry]), changed)

/-- Removes the values of a key from a group. -/
def remove (t : Table κ) (g : Group) (key : κ) : Table κ × Bool :=
  let entries := (t.entries g).map fun entry => if entry.key = key then entry.clear.1 else entry
  (t.withEntries g entries, (t.find? g key).any (!·.isRemoved))

/-- Stores the values of a key in a group; no values at all remove it. -/
def set (t : Table κ) (g : Group) (key : κ) (values : List Value) : Table κ × Bool :=
  if values.isEmpty then t.remove g key else t.touch g key (·.write values)

/-- Stores the live entries of another table, of one group or of all, in their order. -/
def copyFrom (t source : Table κ) (choice : Option Group) : Table κ × Bool :=
  foldChanges (fun t (g, entry) => t.set g entry.key entry.values) t
    (source.list.filter fun (g, entry) => g.isIn choice && !entry.isRemoved)

end Table

end FlexStyle
