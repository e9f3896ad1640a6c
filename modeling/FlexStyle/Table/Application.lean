import FlexStyle.Property.BoxEffect
import FlexStyle.Property.TextEffect
import FlexStyle.Table

/-!
# Tables put to work

The table of a node is applied in two steps: the properties that define the text style first, since
lengths are measured with it; then all others, to the box record that the last application has left
behind. Entries that have not changed are installed again like all others. An entry that has been
removed gives the initial values back to the parts it had written, and so may overwrite what its
relatives have written just before; those are installed once more.

- `Table.applyText`: the text style of a node.
- `Table.boxAssignments`: all that a table has to write to a box record, in order.
- `Table.applyBox`: the box record of a node.
-/

namespace FlexStyle

namespace Table

/-- One property of the text style put to work: its value that counts, or the inherited one. -/
def textStep? (fonts : Fonts) (inherited : TextStyle) (font : FontId) (t : Table Property)
    (p : Property) : Option TextAssignment :=
  match t.cascaded? p with
  | some (_, entry) => p.textAssignment? fonts inherited font entry.values
  | none => p.textReset? inherited

/--
The text style of a node with this table, from what it inherits and its own font; and whether some
part came out other than inherited.
-/
def applyText (fonts : Fonts) (inherited : TextStyle) (font : FontId) (t : Table Property) :
    TextStyle × Bool :=
  foldChanges TextStyle.assign { inherited with font }
    (Property.textDefining.filterMap (t.textStep? fonts inherited font))

/--
The assignments to the box record that a row of entries stands for, after the live entries in
`passed`. An entry that holds values is installed. One whose values have been removed gives the
initial values back to its parts, and the relatives that were passed before are installed again; of
a property that has been passed twice, only the later one counts.
-/
def assignmentsAfter (metrics : RelativeMetrics) (initial : BoxStyle)
    (passed : List (Property × List Value)) : List (Entry Property) → List Assignment
  | [] => []
  | entry :: rest =>
    let p := entry.key
    if !entry.isRemoved then
      let passed := passed.filter (·.1 ≠ p) ++ [(p, entry.values)]
      p.assignments metrics entry.values ++ assignmentsAfter metrics initial passed rest
    else if entry.event = .removed then
      let relatives := passed.filter (·.1 ∈ p.family)
      p.resets initial ++ relatives.flatMap (fun (q, values) => q.assignments metrics values) ++
        assignmentsAfter metrics initial passed rest
    else assignmentsAfter metrics initial passed rest

/-- The assignments to the box record that a table stands for, in the order of application. -/
def boxAssignments (metrics : RelativeMetrics) (initial : BoxStyle) (t : Table Property) :
    List Assignment :=
  assignmentsAfter metrics initial [] (t.list.map (·.2))

/-- The record of a box after this table has been put to work on it, and whether it changed. -/
def applyBox (metrics : RelativeMetrics) (initial : BoxStyle) (t : Table Property)
    (style : BoxStyle) : BoxStyle × Bool :=
  style.assignAll (t.boxAssignments metrics initial)

end Table

end FlexStyle
