import FlexStyle.Proofs.Reapplication

/-!
# Text styles and marks

The layout of a box depends on the text style of its node as much as on its record, so one would
have a box marked whenever a flush gives its node another text style. An application does not look
at the text style that the node has had, though. It marks the box if the table asks for something
other than what is inherited, or if the record changes. So a node that goes back to the inherited
text style, or follows an ancestor to another one, may keep a box without a mark.

- `Tree.Untouched`: whether an application has nothing to report of a node and its record;
  `Tree.untouched_iff` says that its two steps tell so.
- `TextStyle.parts`: what a text style is, apart from its font.
- `Tree.Reachable.marked_iff`: which of the nodes that a flush applies have a mark afterwards. One
  that has none has the text style that it inherits.
-/

namespace FlexStyle

/-- The parts of a text style that properties define. -/
def TextStyle.parts (s : TextStyle) : Single × Single × Keyword .textAlign :=
  (s.size, s.lineHeight, s.align)

/-- A text style that tells of no change is the inherited one, in the node's own font. -/
theorem Table.Inherits.applyText_eq {fonts : Fonts} {above : TextStyle} {own : Option FontId}
    {t : Table Property} (h : t.Inherits fonts above own) :
    (t.applyText fonts above (own.getD above.font)).1 =
      { above with font := own.getD above.font } := by
  refine foldChanges_of_false TextStyle.assign (fun s a hfalse => ?_)
    (Table.applyText_snd_eq_false_iff.mpr h)
  rw [TextStyle.assign] at hfalse ⊢
  split at hfalse
  case isTrue hagrees => rw [if_pos hagrees]
  case isFalse => cases hfalse

theorem BoxStore.isDirty_write {store : BoxStore} {id : BoxId} {style : BoxStyle} {dirty : Bool}
    (hslot : store.slot? id = some ⟨style, dirty⟩) (style' : BoxStyle) (changed : Bool) :
    (store.write id style' changed).isDirty id = (dirty || changed) := by
  rw [isDirty, write, slot?_modifySlot, if_pos rfl, hslot]
  rfl

namespace Tree

variable {t t' : Tree} {n root : NodeId} {node after : Node} {style : BoxStyle}
  {applied : List NodeId} {dirty : Bool}

/-- Whether an application of a node whose box has this record has nothing to report: the node has
the text style that it inherits, no two assignments to its record differ, and the record has what
they write last. -/
structure Untouched (t : Tree) (n : NodeId) (node : Node) (style : BoxStyle) : Prop where
  text : node.table.Inherits t.fonts (t.inherited n) node.font
  concordant : Concordant
    (node.table.boxAssignments ((t.foundText n node).metrics t.fonts) t.store.initial)
  holds : style.Holds
    (node.table.boxAssignments ((t.foundText n node).metrics t.fonts) t.store.initial)

/-- A node is untouched if neither of the two steps of its application reports a change. -/
theorem untouched_iff : t.Untouched n node style ↔ t.foundMark n node style = false := by
  rw [foundMark, Bool.or_eq_false_iff, Table.applyText_snd_eq_false_iff, Table.applyBox,
    BoxStyle.assignAll_snd_eq_false_iff]
  exact ⟨fun h => ⟨h.text, h.concordant, h.holds⟩, fun h => ⟨h.1, h.2.1, h.2.2⟩⟩

instance (t : Tree) (n : NodeId) (node : Node) (style : BoxStyle) :
    Decidable (t.Untouched n node style) :=
  decidable_of_iff _ untouched_iff.symm

/-- An untouched node has the text style that it inherits. -/
theorem Untouched.foundText (h : t.Untouched n node style) :
    (t.foundText n node).parts = (t.inherited n).parts := by
  rw [Tree.foundText, h.text.applyText_eq, TextStyle.parts, TextStyle.parts]

/-- What the application of a node finds is still to be found after the flush. -/
theorem Turn.found_eq {u : Tree} (h : Turn t u t' n node) (style : BoxStyle) :
    t'.foundText n node = u.foundText n node ∧
      t'.foundMark n node style = u.foundMark n node style := by
  have htext : t'.foundText n node = u.foundText n node := by
    rw [Tree.foundText, Tree.foundText, h.fonts, h.inherited]
  exact ⟨htext, by rw [foundMark, foundMark, htext, h.fonts, h.inherited, h.initial]⟩

/-- **A node that a flush has applied has a mark** exactly if it had one before, or if its table
asks for a text style other than the inherited one or its record changes. Whether the text style is
the one that the node has had makes no difference: a node without a mark has the text style that it
inherits, whatever it had. -/
theorem Reachable.marked_iff (h : Reachable AnyCommand t)
    (hok : t.flush root = .ok (t', applied)) (hn : n ∈ applied) (hnode : t.node? n = some node)
    (hslot : t.store.slot? node.box = some ⟨style, dirty⟩) :
    ∃ after, t'.node? n = some after ∧ after.box = node.box ∧
      after.text = t'.foundText n node ∧
      (t'.store.isDirty after.box = true ↔ dirty = true ∨ ¬ t'.Untouched n node style) ∧
      (t'.store.isDirty after.box = false → after.text.parts = (t'.inherited n).parts) := by
  obtain ⟨u, hu⟩ := exists_turn h.sound hok hn hnode
  obtain ⟨htext, hmark⟩ := hu.found_eq style
  have huslot : u.store.slot? node.box = some ⟨style, dirty⟩ := hu.slot?.trans hslot
  have hstyle : u.store.style? node.box = some style := by
    rw [BoxStore.style?, huslot]
    rfl
  have hdirty : t'.store.isDirty node.box = (dirty || t'.foundMark n node style) := by
    rw [BoxStore.isDirty, hu.written, apply_eq hu.node? hstyle, hmark]
    exact BoxStore.isDirty_write huslot _ _
  refine ⟨_, hu.settled, rfl, htext.symm, ?_, fun hclean => ?_⟩
  · show t'.store.isDirty node.box = true ↔ _
    rw [hdirty, untouched_iff, Bool.or_eq_true, Bool.not_eq_false]
  · have huntouched : t'.Untouched n node style :=
      untouched_iff.mpr (Bool.or_eq_false_iff.mp (hdirty.symm.trans hclean)).2
    show (u.foundText n node).parts = _
    rw [← htext]
    exact huntouched.foundText

/-- A node without declarations follows its parent to another font size, and has no mark. -/
theorem marked_iff_follows :
    let t := (withFont .default (.ofHost .default fun _ => .fixed 16) .builtIn).run
      [.create, .create, .append ⟨0⟩ ⟨1⟩, .flush ⟨0⟩, .takeDirty,
        .set ⟨0⟩ .inline "font-size" [.text "20px"]]
    let t' := t.after (.flush ⟨0⟩)
    ∃ node after, t.node? ⟨1⟩ = some node ∧ t'.node? ⟨1⟩ = some after ∧ node.text.size = 16 ∧
      after.text.parts = (t'.inherited ⟨1⟩).parts ∧ after.text.size = 20 ∧
      t'.store.isDirty after.box = false := by
  intro t t'
  have hreach : Reachable AnyCommand t := (Reachable.start _ _ _).run _
  obtain ⟨hroot, hlist, node, hnode, hsize, ⟨style, dirty⟩, hslot, hclean, huntouched,
    hinherited⟩ :
      t.contains ⟨0⟩ = true ∧ (t.flush ⟨0⟩).toOption.map (·.2) = some [⟨0⟩, ⟨1⟩] ∧
        ∃ node ∈ t.node? ⟨1⟩, node.text.size = 16 ∧ ∃ slot ∈ t.store.slot? node.box,
          slot.dirty = false ∧ t'.Untouched ⟨1⟩ node slot.style ∧
            (t'.inherited ⟨1⟩).size = 20 := by
    decide +kernel
  obtain rfl : dirty = false := hclean
  obtain ⟨t₁, applied, hok⟩ := exists_flush hroot
  obtain rfl : t' = t₁ := after_flush_of_ok hok
  have hn : ⟨1⟩ ∈ applied := by
    rw [hok] at hlist
    cases hlist
    decide
  obtain ⟨after, hafter, -, -, hmarked, hparts⟩ := hreach.marked_iff hok hn hnode hslot
  have hdirty : t'.store.isDirty after.box = false := by
    rw [← Bool.not_eq_true, hmarked]
    simpa using huntouched
  exact ⟨node, after, hnode, hafter, hsize, hparts hdirty,
    (congrArg Prod.fst (hparts hdirty)).trans hinherited, hdirty⟩

/-- A node whose font size is taken back to the inherited one has another text style than before,
and no mark. -/
theorem not_every_text_change_is_marked :
    ¬ ∀ (t t' : Tree) (n root : NodeId) (node after : Node) (applied : List NodeId),
      Reachable AnyCommand t → t.flush root = .ok (t', applied) → n ∈ applied →
      t.node? n = some node → t'.node? n = some after → after.text.parts ≠ node.text.parts →
      t'.store.isDirty after.box = true := by
  intro hall
  let t := (withFont .default (.ofHost .default fun _ => .fixed 16) .builtIn).run
    [.create, .set ⟨0⟩ .inline "font-size" [.text "20px"], .flush ⟨0⟩, .takeDirty,
      .remove ⟨0⟩ .inline "font-size"]
  have hreach : Reachable AnyCommand t := (Reachable.start _ _ _).run _
  obtain ⟨hroot, hpath, node, hnode, hwaits, after, hafter, hchanged, hclean⟩ :
      t.contains ⟨0⟩ = true ∧ ⟨0⟩ ∈ t.shape.path ⟨0⟩ ∧
        ∃ node ∈ t.node? ⟨0⟩, t.isScheduled ⟨0⟩ = true ∧
          ∃ after ∈ (t.after (.flush ⟨0⟩)).node? ⟨0⟩, after.text.parts ≠ node.text.parts ∧
            (t.after (.flush ⟨0⟩)).store.isDirty after.box = false := by
    decide +kernel
  obtain ⟨t', applied, hok⟩ := exists_flush hroot
  rw [after_flush_of_ok hok] at hafter hclean
  have hn : ⟨0⟩ ∈ applied :=
    (mem_applied_iff hreach.sound hreach.queued hok ⟨0⟩).mpr ⟨hpath, .inl hwaits⟩
  have hdirty := hall t t' ⟨0⟩ ⟨0⟩ node after applied hreach hok hn hnode hafter hchanged
  rw [hclean] at hdirty
  cases hdirty

end Tree

end FlexStyle
