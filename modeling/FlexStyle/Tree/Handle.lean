import FlexStyle.Tree.Structure

/-!
# Handles

A host does not see the numbers of nodes. It holds handles: every node is put into a slot of an
arena, and its handle names the slot, with a stamp that tells the node from those that were there
before. The slots of removed nodes become vacant, and later nodes are put there. Handles are equal
if their slots and stamps are; but a node is looked up by the slot alone.

- `Reuse`: how an arena chooses among its vacant slots, which may be in any way.
- `Arena.insert`, `Arena.vacate`: a node that is put into a slot, and slots that become vacant.
- `HandledTree.lookup`: the node that a handle leads to. An operation on a handle is the operation
  of the tree on this node.

What a tree itself keeps, its shape and its queue, goes by the numbers of nodes. Left out is a queue
of handles, where the entry of a removed node counts for the node that takes over its slot: it can
only bring that node's turn forward, among nodes with as many nodes above them.
-/

namespace FlexStyle

/-- The slot that a node was put into, and what tells the node from others that have been there. -/
structure Handle where
  slot : Nat
  stamp : Nat
  deriving DecidableEq

/-- The slot in which a new node is put, out of those that are vacant; none if the new node gets a
slot of its own. -/
structure Reuse where
  pick : List Nat → Option Nat
  mem_of_pick : ∀ {vacant : List Nat} {i : Nat}, pick vacant = some i → i ∈ vacant

/-- The slot that has been vacant for longest. -/
def Reuse.oldest : Reuse where
  pick := List.head?
  mem_of_pick := List.mem_of_head?

/-- A slot, with the node that was last put there, and the stamp of that node. -/
structure ArenaSlot where
  stamp : Nat
  node : NodeId
  deriving DecidableEq

/-- Slots for the nodes of a tree. -/
structure Arena where
  reuse : Reuse
  slots : Array ArenaSlot
  /-- The slots whose nodes have been removed, the last one at the end. -/
  vacant : List Nat

namespace Arena

/-- Puts a node into a vacant slot with the next stamp, or else into a slot of its own. -/
def insert (a : Arena) (n : NodeId) : Handle × Arena :=
  match a.reuse.pick a.vacant with
  | some i =>
    let stamp := a.slots[i]?.elim 0 (·.stamp + 1)
    (⟨i, stamp⟩, { a with
      slots := a.slots.setIfInBounds i ⟨stamp, n⟩
      vacant := a.vacant.filter (· ≠ i) })
  | none => (⟨a.slots.size, 0⟩, { a with slots := a.slots.push ⟨0, n⟩ })

/-- The slot that a node was put into. -/
def slotOf? (a : Arena) (n : NodeId) : Option Nat := a.slots.findIdx? (·.node = n)

/-- Makes the slots of some nodes vacant, one after the other. -/
def vacate (a : Arena) (nodes : List NodeId) : Arena :=
  { a with vacant := a.vacant ++ nodes.filterMap a.slotOf? }

end Arena

/-- A tree together with the arena that its handles are for. -/
structure HandledTree where
  tree : Tree
  arena : Arena

namespace HandledTree

/-- A tree without nodes, whose roots have the font `font`. -/
def withFont (reuse : Reuse) (config : Config) (fonts : Fonts) (font : FontId) : HandledTree where
  tree := .withFont config fonts font
  arena := { reuse, slots := #[], vacant := [] }

/-- The node that was last put into the slot of a handle, whatever its stamp. Where there is no such
slot, it is the number of a node that does not exist. -/
def lookup (s : HandledTree) (h : Handle) : NodeId :=
  (s.arena.slots[h.slot]?.map (·.node)).getD ⟨s.tree.nodes.size⟩

/-- Whether a handle leads to a node that has not been removed. -/
def contains (s : HandledTree) (h : Handle) : Bool := s.tree.contains (s.lookup h)

/-- Adds a node without parent, with a new box. -/
def create (s : HandledTree) : Handle × HandledTree :=
  let (n, tree) := s.tree.create
  let (h, arena) := s.arena.insert n
  (h, ⟨tree, arena⟩)

/-- Removes a node and all beneath it, whose slots become vacant in this order. -/
def removeSubtree (s : HandledTree) (n : NodeId) : Except TreeError HandledTree :=
  (s.tree.removeSubtree n).map fun tree =>
    ⟨tree, s.arena.vacate (s.tree.shape.treeAt n).toList⟩

end HandledTree

end FlexStyle
