import FlexStyle.Declaration
import FlexStyle.Tree

/-!
# Writing to nodes

A write that is accepted changes the table of a node and puts the node into the queue. Each write
tells whether it did what was asked; if not, the tree is as it was.

- `Tree.set`, `Tree.remove`, `Tree.clear`, `Tree.copyStyles`: values of properties.
- `Tree.setFont`: the node's own font.
- `Tree.inlineText`, `Tree.setInlineText`: the inline group as declarations.
- `Tree.get?`, `Tree.cascaded`: the values of a property.
-/

namespace FlexStyle.Tree

/-- Changes the table of a node; the node is scheduled if that changed any values. -/
def changeTable (t : Tree) (n : NodeId) (change : Table Property → Table Property × Bool) :
    Tree × Bool :=
  match t.node? n with
  | none => (t, false)
  | some node =>
    let (table, changed) := change node.table
    let t := t.modify n fun node => { node with table }
    (if changed then t.schedule n else t, changed)

/-- Removes a property from a group. -/
def remove (t : Tree) (n : NodeId) (g : Group) (name : String) : Tree × Bool :=
  match Property.ofName? name with
  | none => (t, false)
  | some p => t.changeTable n (·.remove g p)

/-- The arguments of a write; a text alone is cut at its spaces. -/
def arguments : List Raw → List Raw
  | [.text text] => (Text.words text.toList).map fun word => .text (String.ofList word)
  | values => values

/--
Writes values to a property in a group. Input without any value removes the property; arguments
that the property does not take are refused.
-/
def set (t : Tree) (n : NodeId) (g : Group) (name : String) (values : List Raw) : Tree × Bool :=
  match Property.ofName? name with
  | none => (t, false)
  | some p =>
    if values.all (·.isUnspecified) then t.remove n g name
    else
      match p.accept? (arguments values), t.contains n with
      | some values, true =>
        let t := t.modify n fun node => { node with table := (node.table.set g p values).1 }
        (t.schedule n, true)
      | _, _ => (t, false)

/-- Writes a text to a property. -/
def setText (t : Tree) (n : NodeId) (g : Group) (name text : String) : Tree × Bool :=
  t.set n g name [.text text]

/-- The values of a property in a group. -/
def get? (t : Tree) (n : NodeId) (g : Group) (name : String) : Option (List Value) := do
  let p ← Property.ofName? name
  let node ← t.node? n
  let entry ← node.table.find? g p
  if entry.isRemoved then none else some entry.values

/-- The values of a property that count; none if it is not set. -/
def cascaded (t : Tree) (n : NodeId) (name : String) : List Value :=
  let found := do
    let p ← Property.ofName? name
    let node ← t.node? n
    node.table.cascaded? p
  (found.map fun (_, entry) => entry.values).getD []

/-- Removes all properties of one group, or of all. -/
def clear (t : Tree) (n : NodeId) (choice : Option Group) : Tree × Bool :=
  t.changeTable n (·.clear choice)

/-- Writes the values that `source` holds, in one group or in all, to `target`. -/
def copyStyles (t : Tree) (target source : NodeId) (choice : Option Group) : Tree × Bool :=
  match t.node? source with
  | none => (t, false)
  | some node => t.changeTable target (·.copyFrom node.table choice)

/-- Gives a node a font of its own, or none. -/
def setFont (t : Tree) (n : NodeId) (font : Option FontId) : Tree × Bool :=
  match t.node? n with
  | none => (t, false)
  | some node =>
    if node.font = font then (t, false)
    else ((t.modify n fun node => { node with font }).schedule n, true)

/-! ## The inline group as text -/

/-- The declaration of an entry. -/
def declaration (entry : Entry Property) : Declaration :=
  let value := " ".intercalate (entry.values.map (·.text))
  .tidy entry.key.name.toList value.toList

/-- The live entries of the inline group as declarations. -/
def inlineText (t : Tree) (n : NodeId) : String :=
  match t.node? n with
  | none => ""
  | some node => Declaration.text ((node.table.live .inline).map declaration)

/-- Writes declarations to the inline group; tells whether all of them were accepted. -/
def declare (t : Tree) (n : NodeId) : List Declaration → Tree × Bool
  | [] => (t, true)
  | d :: declarations =>
    let (t, accepted) := t.setText n .inline d.property d.value
    let (t, acceptedLater) := t.declare n declarations
    (t, accepted && acceptedLater)

/-- Replaces the inline group by declarations; tells whether all of them were accepted. -/
def setInlineText (t : Tree) (n : NodeId) (text : String) : Tree × Bool :=
  if t.contains n then (t.clear n (some .inline)).1.declare n (Declaration.list text)
  else (t, false)

end FlexStyle.Tree
