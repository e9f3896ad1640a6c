import FlexStyle.Table.Application
import FlexStyle.Tree

/-!
# Applying what waits

A flush applies the nodes that wait within one tree, those nearest to the root first. A node whose
text style changes hands the change down: the nodes beneath it are applied at once, and not again
when their own turn comes. Nodes outside of the tree keep waiting, and nodes that have been removed
leave the queue.

- `Tree.apply`: one node applied, and whether its text style changed.
- `Tree.applyForest`: nodes applied as far down as text styles change.
- `Tree.flush`: all nodes that wait within a tree, with the list of those that were applied.
-/

namespace FlexStyle.Tree

/-- The text style that a node inherits. -/
def inherited (t : Tree) (n : NodeId) : TextStyle :=
  (((t.parent? n).bind t.node?).map (·.text)).getD t.rootText

/-- Gives a node its text style and ends its wait; tells whether the text style is another one. -/
def settle (t : Tree) (n : NodeId) (text : TextStyle) : Tree × Bool :=
  (t.modify n fun node =>
    { node with table := node.table.clearEvents, text, scheduled := false },
    (t.node? n).any fun node => node.text ≠ text)

/--
Applies one node: finds its text style, and puts its table to work on its box. Where the host has
given up the box, the table is left aside. Tells whether the text style has changed.
-/
def apply (t : Tree) (n : NodeId) : Tree × Bool :=
  match t.node? n with
  | none => (t, false)
  | some node =>
    let inherited := t.inherited n
    let font := node.font.getD inherited.font
    match t.store.style? node.box with
    | none => t.settle n { inherited with font }
    | some style =>
      let (text, textDiffers) := node.table.applyText t.fonts inherited font
      let (style, styleChanged) :=
        node.table.applyBox (text.metrics t.fonts) t.store.initial style
      let store := t.store.write node.box style (textDiffers || styleChanged)
      { t with store }.settle n text

/-- Applies the roots of a row of trees, and what is beneath those whose text style changes. -/
def applyForest : Forest NodeId → Tree → Tree × List NodeId
  | .nil, t => (t, [])
  | .tree root beneath beside, t =>
    let (t, changed) := t.apply root
    let (t, below) := if changed then applyForest beneath t else (t, [])
    let (t, after) := applyForest beside t
    (t, root :: below ++ after)

/-- Applies a node if it still waits, and what is beneath it as far as text styles change. -/
def applyWaiting (t : Tree) (n : NodeId) : Tree × List NodeId :=
  if t.isScheduled n then applyForest (t.shape.treeAt n) t else (t, [])

/-- Applies those nodes of a list that still wait when their turn comes. -/
def applyAll (t : Tree) : List NodeId → Tree × List NodeId
  | [] => (t, [])
  | n :: queue =>
    let (t, now) := t.applyWaiting n
    let (t, later) := t.applyAll queue
    (t, now ++ later)

/--
Applies all nodes that wait at `root` or beneath it, the ones with fewer nodes above them first.
Gives the nodes that were applied, in order.
-/
def flush (t : Tree) (root : NodeId) : Except TreeError (Tree × List NodeId) :=
  if !t.contains root then .error (.missing root)
  else
    let (within, outside) :=
      (t.queue.filter t.contains).partition fun n => root ∈ t.shape.path n
    let ordered := within.mergeSort fun a b => t.shape.depth a ≤ t.shape.depth b
    .ok ({ t with queue := outside }.applyAll ordered)

end FlexStyle.Tree
