import FlexStyle.Tree

/-!
# The shape of a tree

- `Tree.append`: a node and all beneath it, moved beneath another node.
- `Tree.detach`: a node and all beneath it, as a tree of its own.
- `Tree.removeSubtree`: a node and all beneath it, given up with their boxes.

A change that is refused leaves the tree as it was.
-/

namespace FlexStyle.Tree

/--
Moves `child` beneath `parent`, after the nodes that are there. Fails if one of the nodes does not
exist, or if `parent` is `child` or beneath it.
-/
def append (t : Tree) (parent child : NodeId) : Except TreeError Tree :=
  if !t.contains parent then .error (.missing parent)
  else if !t.contains child then .error (.missing child)
  else if child ∈ t.shape.path parent then .error (.beneathItself child parent)
  else
    let shape := (t.shape.prune child).graft parent (t.shape.treeAt child)
    .ok ({ t with shape }.schedule child)

/-- Takes a node away from its parent. -/
def detach (t : Tree) (n : NodeId) : Except TreeError Tree :=
  if !t.contains n then .error (.missing n)
  else
    let shape := t.shape.prune n ++ t.shape.treeAt n
    .ok ({ t with shape }.schedule n)

/-- Gives up one node with its box; its place in the shape is left as it is. -/
def discard (t : Tree) (n : NodeId) : Tree :=
  match t.node? n with
  | some node =>
    { t with
      nodes := t.nodes.setIfInBounds n.number none
      store := t.store.remove node.box }
  | none => t

/-- Removes a node and all beneath it, each before those beneath it. -/
def removeSubtree (t : Tree) (n : NodeId) : Except TreeError Tree :=
  if !t.contains n then .error (.missing n)
  else .ok { (t.shape.treeAt n).toList.foldl discard t with shape := t.shape.prune n }

end FlexStyle.Tree
