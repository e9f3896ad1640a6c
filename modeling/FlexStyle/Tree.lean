import FlexStyle.Box.Store
import FlexStyle.Forest
import FlexStyle.Property
import FlexStyle.Table
import FlexStyle.TextStyle

/-!
# Style trees

A style tree holds the nodes of a forest, each with its table, its text style and its box, and the
queue of nodes that wait to be applied. Writes only change tables and the queue; boxes and text
styles change in a flush. Nodes are numbered in the order of creation, and no number is given twice;
the handles by which hosts name them are in `FlexStyle.Tree.Handle`.

- `Tree.withFont`, `Tree.create`: an empty tree, and a new node without parent.
- `Tree.node?`, `Tree.contains`: the node of a number, until it is removed.
- `Tree.schedule`: puts a node into the queue, once.
-/

namespace FlexStyle

/-- The number of a node. -/
structure NodeId where
  number : Nat
  deriving DecidableEq

/-- A styled node. -/
structure Node where
  table : Table Property
  /-- The text style that the last flush has found. -/
  text : TextStyle
  box : BoxId
  /-- The node's own font, if it does not inherit one. -/
  font : Option FontId
  /-- Whether the node waits in the queue. -/
  scheduled : Bool

/-- A forest of styled nodes over one store of boxes. -/
structure Tree where
  config : Config
  fonts : Fonts
  /-- The text style that a node without parent inherits. -/
  rootText : TextStyle
  /-- The nodes by their numbers; a removed node leaves its place empty for good. -/
  nodes : Array (Option Node)
  shape : Forest NodeId
  store : BoxStore
  /--
  The nodes that wait, in the order in which they were scheduled. Those that have been removed
  since then are still among them.
  -/
  queue : List NodeId

/-- Why the shape of a tree is not changed. -/
inductive TreeError where
  | missing (n : NodeId)
  | beneathItself (child parent : NodeId)
  deriving DecidableEq

namespace TreeError

/-- The name of a node in a message. -/
def label (n : NodeId) : String := "#" ++ toString n.number

/-- The error in words. -/
def message : TreeError → String
  | missing n => "style node " ++ label n ++ " does not exist"
  | beneathItself child parent =>
    "cannot append " ++ label child ++ " beneath its own descendant " ++ label parent

end TreeError

namespace Tree

/-- A tree without nodes, whose roots have the font `font`. -/
def withFont (config : Config) (fonts : Fonts) (font : FontId) : Tree where
  config
  fonts
  rootText := .root config font
  nodes := #[]
  shape := .nil
  store := .empty config.webDefaults
  queue := []

/-- The node with a number, if it has not been removed. -/
def node? (t : Tree) (n : NodeId) : Option Node := t.nodes[n.number]?.join

/-- Whether there is a node with a number. -/
def contains (t : Tree) (n : NodeId) : Bool := (t.node? n).isSome

/-- The tree with a change of one node; nothing happens if there is no such node. -/
def modify (t : Tree) (n : NodeId) (change : Node → Node) : Tree :=
  { t with nodes := t.nodes.modify n.number (Option.map change) }

/-- Adds a node without parent, with a new box. -/
def create (t : Tree) : NodeId × Tree :=
  let n : NodeId := ⟨t.nodes.size⟩
  let (box, store) := t.store.create
  let node : Node := ⟨{}, t.rootText, box, none, false⟩
  (n, { t with
    nodes := t.nodes.push (some node)
    shape := t.shape ++ .tree n .nil .nil
    store })

/-- Whether a node waits to be applied. -/
def isScheduled (t : Tree) (n : NodeId) : Bool := (t.node? n).any (·.scheduled)

/-- Puts a node at the end of the queue, unless it waits already. -/
def schedule (t : Tree) (n : NodeId) : Tree :=
  if t.contains n && !t.isScheduled n then
    { t.modify n fun node => { node with scheduled := true } with queue := t.queue ++ [n] }
  else t

/-- The node directly above a node. -/
def parent? (t : Tree) (n : NodeId) : Option NodeId := t.shape.parent? n

/-- The record of a node's box. -/
def boxStyle? (t : Tree) (n : NodeId) : Option BoxStyle :=
  (t.node? n).bind fun node => t.store.style? node.box

/-- Whether the table of a node has changed since the node was applied. -/
def hasPendingChanges (t : Tree) (n : NodeId) : Bool :=
  (t.node? n).any (·.table.hasPendingEvents)

end Tree

end FlexStyle
