import FlexStyle.Proofs.Tree.Run

/-!
# Text styles are inherited

The text style of a node follows from that of its parent, its own font and its table. A flush finds
the text styles of nodes that wait, and goes on beneath those whose text style has changed; that is
enough, for whatever it leaves aside has been right before.

- `TextStyle.resolved`: the text style that a node is to have. It is the one that an application
  finds (`Tree.foundText_eq`).
- `Tree.Stale`: a node with another text style. `Tree.stale_apply` says which nodes an application
  leaves stale: those that were, but for the node itself, and its children if its text style has
  changed.
- `Tree.stale_applyForest`: a walk down a row of trees leaves no node stale that does not wait.
- `Tree.Reachable.text_eq_resolved`: no node is stale unless it waits, and after a flush none is
  that is beneath its root.
-/

namespace FlexStyle

/-! ## Text styles to be had -/

/-- The values of a property that count, if it is set. -/
def Table.values? (t : Table Property) (p : Property) : Option (List Value) :=
  (t.cascaded? p).map fun (_, entry) => entry.values

namespace TextStyle

/-- A number, unless the one that is there compares as equal to it; then that one is kept. -/
def kept (there x : Single) : Single := if there == x then there else x

/-- The font size that the values of `font-size` ask for. A length is measured with the size, line
height and alignment from above, in the node's own font; a percentage is one of the size above. -/
def sizeFrom (fonts : Fonts) (above : TextStyle) (font : FontId) : Option (List Value) → Single
  | some (.length x unit :: _) => unit.toPixels ({ above with font }.metrics fonts) x
  | some (.percentage x :: _) => above.size * x / 100
  | _ => above.size

/-- The line height that the values of `line-height` ask for. -/
def lineHeightFrom (above : TextStyle) : Option (List Value) → Single
  | some (value :: _) => value.asNumber?.getD above.lineHeight
  | _ => above.lineHeight

/-- The alignment that the values of `text-align` ask for. -/
def alignFrom (above : TextStyle) : Option (List Value) → Keyword .textAlign
  | some (value :: _) => (value.asKeyword? .textAlign).getD above.align
  | _ => above.align

/-- The text style of a node with a font of its own, or none, and a table, beneath `above`. -/
def resolved (fonts : Fonts) (above : TextStyle) (own : Option FontId) (t : Table Property) :
    TextStyle where
  font := own.getD above.font
  size := kept above.size (sizeFrom fonts above (own.getD above.font) (t.values? .fontSize))
  lineHeight := kept above.lineHeight (lineHeightFrom above (t.values? .lineHeight))
  align := alignFrom above (t.values? .textAlign)

theorem kept_self (x : Single) : kept x x = x := by
  unfold kept
  split <;> rfl

/-- A size that is assigned is kept if it compares as equal to the one that is there. -/
theorem assign_size (s : TextStyle) (x : Single) :
    (s.assign (.size x)).1 = { s with size := kept s.size x } := by
  have hagrees : s.agrees (.size x) = (s.size == x) := rfl
  rw [assign, hagrees, kept]
  split
  case isTrue => rfl
  case isFalse => rfl

/-- A line height that is assigned is kept if it compares as equal to the one that is there. -/
theorem assign_lineHeight (s : TextStyle) (x : Single) :
    (s.assign (.lineHeight x)).1 = { s with lineHeight := kept s.lineHeight x } := by
  have hagrees : s.agrees (.lineHeight x) = (s.lineHeight == x) := rfl
  rw [assign, hagrees, kept]
  split
  case isTrue => rfl
  case isFalse => rfl

theorem assign_align (s : TextStyle) (k : Keyword .textAlign) :
    (s.assign (.align k)).1 = { s with align := k } := by
  have hagrees : s.agrees (.align k) = (s.align == k) := rfl
  rw [assign, hagrees]
  split
  case isTrue heq =>
    have heq : s.align = k := by simpa using heq
    rw [← heq]
  case isFalse => rfl

/-- The text style after an assignment, if there is one. -/
def assign? (s : TextStyle) (a : Option TextAssignment) : TextStyle :=
  a.elim s fun a => (s.assign a).1

variable {fonts : Fonts} {above s : TextStyle} {font : FontId} {own : Option FontId}
  {t : Table Property}

/-- The step for `font-size` finds the size that its values ask for. -/
theorem assign?_fontSize (hs : s.size = above.size) :
    s.assign? (t.textStep? fonts above font .fontSize) =
      { s with size := kept s.size (sizeFrom fonts above font (t.values? .fontSize)) } := by
  unfold Table.textStep? Table.values?
  cases t.cascaded? .fontSize with
  | none => exact assign_size s above.size
  | some found =>
    obtain ⟨g, entry⟩ := found
    show s.assign? ((entry.values.head?.bind _).map _) = _
    have hkeep : s = { s with size := kept s.size above.size } := by
      rw [← hs, kept_self]
    cases hvalues : entry.values with
    | nil => simpa [assign?, sizeFrom, hvalues] using hkeep
    | cons value rest =>
      cases value with
      | length x unit =>
        simpa [assign?, Property.fontSizeOf?, sizeFrom, hvalues] using assign_size s _
      | percentage x =>
        simpa [assign?, Property.fontSizeOf?, sizeFrom, hvalues] using assign_size s _
      | _ => simpa [assign?, Property.fontSizeOf?, sizeFrom, hvalues] using hkeep

/-- The step for `line-height` finds the line height that its values ask for. -/
theorem assign?_lineHeight (hs : s.lineHeight = above.lineHeight) :
    s.assign? (t.textStep? fonts above font .lineHeight) =
      { s with
        lineHeight := kept s.lineHeight (lineHeightFrom above (t.values? .lineHeight)) } := by
  unfold Table.textStep? Table.values?
  cases t.cascaded? .lineHeight with
  | none => exact assign_lineHeight s above.lineHeight
  | some found =>
    obtain ⟨g, entry⟩ := found
    show s.assign? ((entry.values.head?.bind _).map _) = _
    have hkeep : s = { s with lineHeight := kept s.lineHeight above.lineHeight } := by
      rw [← hs, kept_self]
    cases hvalues : entry.values with
    | nil => simpa [assign?, lineHeightFrom, hvalues] using hkeep
    | cons value rest =>
      cases hnumber : value.asNumber? with
      | none => simpa [assign?, lineHeightFrom, hvalues, hnumber] using hkeep
      | some x => simpa [assign?, lineHeightFrom, hvalues, hnumber] using assign_lineHeight s x

/-- The step for `text-align` finds the alignment that its values ask for. -/
theorem assign?_textAlign (hs : s.align = above.align) :
    s.assign? (t.textStep? fonts above font .textAlign) =
      { s with align := alignFrom above (t.values? .textAlign) } := by
  unfold Table.textStep? Table.values?
  cases t.cascaded? .textAlign with
  | none => exact assign_align s above.align
  | some found =>
    obtain ⟨g, entry⟩ := found
    show s.assign? ((entry.values.head?.bind _).map _) = _
    have hkeep : s = { s with align := above.align } := by rw [← hs]
    cases hvalues : entry.values with
    | nil => simpa [assign?, alignFrom, hvalues] using hkeep
    | cons value rest =>
      cases hkeyword : value.asKeyword? .textAlign with
      | none => simpa [assign?, alignFrom, hvalues, hkeyword] using hkeep
      | some k => simpa [assign?, alignFrom, hvalues, hkeyword] using assign_align s k

end TextStyle

namespace Table

/-- The text style that a table is put to work to is the one that a node is to have. -/
theorem applyText_eq (fonts : Fonts) (above : TextStyle) (own : Option FontId)
    (t : Table Property) :
    (t.applyText fonts above (own.getD above.font)).1 = .resolved fonts above own t := by
  generalize hfont : own.getD above.font = font
  have hfold : ∀ (s : TextStyle) (a b c : Option TextAssignment),
      (foldChanges TextStyle.assign s (a.toList ++ (b.toList ++ c.toList))).1 =
        ((s.assign? a).assign? b).assign? c := by
    intro s a b c
    cases a <;> cases b <;> cases c <;> rfl
  have hsteps : (t.applyText fonts above font).1 =
      ((({ above with font } : TextStyle).assign? (t.textStep? fonts above font .fontSize)).assign?
        (t.textStep? fonts above font .lineHeight)).assign?
        (t.textStep? fonts above font .textAlign) := by
    rw [← hfold, applyText, Property.textDefining, List.filterMap_eq_flatMap_toList,
      List.flatMap_cons, List.flatMap_cons, List.flatMap_singleton]
  rw [hsteps, TextStyle.assign?_fontSize (by rfl), TextStyle.assign?_lineHeight (by rfl),
    TextStyle.assign?_textAlign (by rfl), TextStyle.resolved, hfont]

theorem values?_congr {s t : Table Property} (h : ∀ g p, t.find? g p = s.find? g p)
    (p : Property) : t.values? p = s.values? p := by
  unfold values? cascaded?
  simp only [h]

theorem values?_clearEvents (t : Table Property) (p : Property) :
    t.clearEvents.values? p = t.values? p := by
  unfold values? cascaded?
  simp only [find?_clearEvents, Group.cascadeOrder, List.findSome?_cons, List.findSome?_nil]
  -- an entry without its event is as live as before, and holds the same values
  have hlookup : ∀ g, (((t.find? g p).map Entry.clearEvent).filter (!·.isRemoved)).map (g, ·) =
      ((t.find? g p).filter (!·.isRemoved)).map fun entry => (g, entry.clearEvent) := by
    intro g
    cases t.find? g p with
    | none => rfl
    | some entry =>
      have hremoved : entry.clearEvent.isRemoved = entry.isRemoved := rfl
      cases hrem : entry.isRemoved <;> simp [Option.filter, hremoved, hrem]
  simp only [hlookup]
  cases (t.find? .inline p).filter (!·.isRemoved) with
  | some entry => rfl
  | none =>
    cases (t.find? .sheet p).filter (!·.isRemoved) with
    | some entry => rfl
    | none =>
      cases (t.find? .preset p).filter (!·.isRemoved) with
      | some entry => rfl
      | none => rfl

end Table

/-- Only the values that count matter for a text style. -/
theorem TextStyle.resolved_congr {fonts : Fonts} {above : TextStyle} {own : Option FontId}
    {s t : Table Property} (h : ∀ p, t.values? p = s.values? p) :
    resolved fonts above own t = resolved fonts above own s := by
  simp only [resolved, h]

namespace Tree

variable {s t t' : Tree} {n m : NodeId} {node : Node}

/-! ## Stale nodes -/

/-- The text style that is found for a node is the one that it is to have. -/
theorem foundText_eq (t : Tree) (n : NodeId) (node : Node) :
    t.foundText n node = .resolved t.fonts (t.inherited n) node.font node.table :=
  Table.applyText_eq t.fonts (t.inherited n) node.font node.table

/-- Whether the text style of a node is another one than the node is to have. -/
def Stale (t : Tree) (n : NodeId) : Prop :=
  ∃ node ∈ t.node? n, node.text ≠ .resolved t.fonts (t.inherited n) node.font node.table

/-- A node inherits the same if its parent is the same and has the same text style. -/
theorem inherited_congr (hroot : t.rootText = s.rootText) (hparent : t.parent? n = s.parent? n)
    (htext : ∀ p, s.parent? n = some p →
      (t.node? p).map (·.text) = (s.node? p).map (·.text)) :
    t.inherited n = s.inherited n := by
  rw [inherited, inherited, hparent, hroot]
  cases hp : s.parent? n with
  | none => rfl
  | some p => exact congrArg (·.getD s.rootText) (htext p hp)

/-- The nodes that an application leaves stale: those that were, but for the node itself; and its
children, if its text style changes. -/
theorem stale_apply (h : t.Sound) (hm : (t.apply n).1.Stale m) :
    (m ≠ n ∧ t.Stale m) ∨ ((t.apply n).2 = true ∧ t.parent? m = some n) := by
  rcases apply_cases h n with ⟨hnone, hsame⟩ | ⟨node, style, hnode, -, ha, hchanged⟩
  · rw [hsame] at hm
    refine .inl ⟨?_, hm⟩
    rintro rfl
    obtain ⟨node, hnode, -⟩ := hm
    rw [Option.mem_def, hnone] at hnode
    cases hnode
  · by_cases hchild : (t.apply n).2 = true ∧ t.parent? m = some n
    · exact .inr hchild
    · -- otherwise the node inherits what it inherited before
      have hinherited : (t.apply n).1.inherited m = t.inherited m := by
        refine inherited_congr ha.base.rootText ?_ fun p hp => ?_
        · rw [parent?, ha.base.shape, parent?]
        · rw [ha.node?]
          split
          case isFalse => rfl
          case isTrue hpn =>
            subst hpn
            have hsame : node.text = t.foundText p node := by
              by_contra hne
              exact hchild ⟨hchanged.mpr hne, hp⟩
            rw [hnode, Option.map_some, Option.map_some, hsame]
            rfl
      obtain ⟨after, hafter, hstale⟩ := hm
      rw [hinherited, ha.base.fonts] at hstale
      rcases ha.node_cases hafter with ⟨rfl, rfl⟩ | ⟨hmn, hbefore⟩
      · refine absurd ?_ hstale
        show t.foundText m node = .resolved t.fonts (t.inherited m) node.font node.table.clearEvents
        rw [foundText_eq]
        exact (TextStyle.resolved_congr node.table.values?_clearEvents).symm
      · exact .inl ⟨hmn, after, hbefore, hstale⟩

/-! ## Walks -/

/-- A walk down a row of trees leaves no node stale that does not wait, if at first there are none
but the roots of the row, and some that are left for later. -/
theorem stale_applyForest (row : Forest NodeId) (later : List NodeId) (h : t.Sound)
    (hwithin : t.shape.Within row)
    (hstale : ∀ m, t.Stale m → t.isScheduled m = true ∨ m ∈ row.roots ∨ m ∈ later) :
    ∀ m, (applyForest row t).1.Stale m →
      (applyForest row t).1.isScheduled m = true ∨ m ∈ later := by
  induction row generalizing t later with
  | nil =>
    intro m hm
    rcases hstale m hm with hwaits | hroots | hlater
    · exact .inl hwaits
    · cases hroots
    · exact .inr hlater
  | tree root beneath beside ihBeneath ihBeside =>
    obtain ⟨hbeneath, hwBeneath, hwBeside⟩ := hwithin
    have hsound := sound_apply h root
    have hshape := (base_apply h root).shape
    -- what is stale once the root has been applied
    have hfirst : ∀ m, (t.apply root).1.Stale m →
        (t.apply root).1.isScheduled m = true ∨
          ((t.apply root).2 = true ∧ m ∈ beneath.roots) ∨ m ∈ beside.roots ∨ m ∈ later := by
      intro m hm
      rcases stale_apply h hm with ⟨hne, hbefore⟩ | ⟨hchanged, hparent⟩
      · rcases hstale m hbefore with hwaits | hroots | hlater
        · exact .inl ((isScheduled_apply h root m).mpr ⟨hwaits, hne⟩)
        · exact .inr (.inr (.inl ((List.mem_cons.mp hroots).resolve_left hne)))
        · exact .inr (.inr (.inr hlater))
      · exact .inr (.inl ⟨hchanged, Forest.mem_roots_of_parent? h.nodup hparent hbeneath⟩)
    cases hchanged : (t.apply root).2 with
    | false =>
      rw [applyForest_of_false hchanged]
      refine ihBeside later hsound (hshape ▸ hwBeside) fun m hm => ?_
      rcases hfirst m hm with hwaits | ⟨htrue, -⟩ | hrest
      · exact .inl hwaits
      · rw [hchanged] at htrue
        cases htrue
      · exact .inr hrest
    | true =>
      rw [applyForest_of_true hchanged]
      have hsound₂ : (applyForest beneath (t.apply root).1).1.Sound := by
        rw [applyForest_fst]
        exact sound_applyEach hsound _
      have hshape₂ : (applyForest beneath (t.apply root).1).1.shape = t.shape := by
        rw [applyForest_fst, (base_applyEach hsound _).shape, hshape]
      refine ihBeside later hsound₂ (hshape₂ ▸ hwBeside) fun m hm => ?_
      rw [← List.mem_append]
      refine ihBeneath (beside.roots ++ later) hsound (hshape ▸ hwBeneath) (fun m hm => ?_) m hm
      rw [List.mem_append]
      rcases hfirst m hm with hwaits | ⟨-, hroots⟩ | hrest
      · exact .inl hwaits
      · exact .inr (.inl hroots)
      · exact .inr (.inr hrest)

/-- Whether all stale nodes wait. -/
def Settled (t : Tree) : Prop := ∀ m, t.Stale m → t.isScheduled m = true

/-- A node that does not wait has the text style that it is to have. -/
theorem Settled.text_eq {node : Node} (hs : t.Settled) (hnode : t.node? n = some node)
    (hrests : node.scheduled = false) :
    node.text = .resolved t.fonts (t.inherited n) node.font node.table := by
  by_contra hstale
  have hwaits := hs n ⟨node, hnode, hstale⟩
  rw [isScheduled_of_node? hnode, hrests] at hwaits
  cases hwaits

/-- A turn leaves no stale node behind that does not wait. -/
theorem settled_applyWaiting (h : t.Sound) (hs : t.Settled) : (t.applyWaiting n).1.Settled := by
  unfold applyWaiting
  split
  case isFalse => exact hs
  case isTrue =>
    intro m hm
    have hwalk := stale_applyForest (t.shape.treeAt n) [] h (Forest.within_treeAt h.nodup n)
      (fun m hm => .inl (hs m hm)) m hm
    exact hwalk.resolve_right List.not_mem_nil

theorem settled_applyAll (h : t.Sound) (hs : t.Settled) (queue : List NodeId) :
    (t.applyAll queue).1.Settled := by
  induction queue generalizing t with
  | nil => exact hs
  | cons n queue ih =>
    have hsound : (t.applyWaiting n).1.Sound := by
      rw [applyWaiting_fst]
      exact sound_applyEach h _
    exact ih hsound (settled_applyWaiting h hs)

/-- A flush leaves no stale node behind that does not wait. -/
theorem settled_flush (h : t.Sound) (hs : t.Settled) {root : NodeId} {applied : List NodeId}
    (hok : t.flush root = .ok (t', applied)) : t'.Settled := by
  obtain ⟨inside, outside, hall, -, -⟩ := flush_ok hok
  have hsettled : ({ t with queue := outside }.applyAll inside).1.Settled :=
    settled_applyAll (h.with_queue outside) hs inside
  rwa [hall] at hsettled

/-! ## All other commands -/

/-- A node that does not wait after a command has not become stale by it. -/
theorem settled_evolves {ordered : Prop} (hc : s.Evolves ordered t) (hs : s.Settled) :
    t.Settled := by
  rintro n ⟨after, hafter, hstale⟩
  obtain ⟨before, hbefore, hkept⟩ := hc.node hafter
  by_contra hrests
  have hflag : after.scheduled = false := by
    rw [isScheduled_of_node? hafter] at hrests
    simpa using hrests
  have hinherited : t.inherited n = s.inherited n := by
    refine inherited_congr hc.rootText (hkept.parent? hflag) fun p hp => ?_
    -- the parent is still there, with its text style
    have hparent : t.parent? n = some p := (hkept.parent? hflag).trans hp
    obtain ⟨above, habove⟩ := contains_iff.mp
      ((hc.sound.mem_shape p).mp (Forest.mem_of_parent? hparent))
    obtain ⟨aboveBefore, haboveBefore, hkeptAbove⟩ := hc.node habove
    rw [habove, haboveBefore]
    exact congrArg some hkeptAbove.text
  have hresolved : TextStyle.resolved t.fonts (t.inherited n) after.font after.table =
      .resolved s.fonts (s.inherited n) before.font before.table := by
    rw [hc.fonts, hinherited, hkept.font hflag]
    exact TextStyle.resolved_congr (Table.values?_congr (hkept.find? hflag))
  have hwaits : s.isScheduled n = true := by
    refine hs n ⟨before, hbefore, ?_⟩
    rwa [hresolved, hkept.text] at hstale
  rw [isScheduled_of_node? hbefore, hkept.rests hflag] at hwaits
  cases hwaits

theorem resolved_empty (fonts : Fonts) (above : TextStyle) :
    TextStyle.resolved fonts above none {} = above := by
  show TextStyle.mk above.font (TextStyle.kept _ above.size)
    (TextStyle.kept _ above.lineHeight) above.align = above
  rw [TextStyle.kept_self, TextStyle.kept_self]

/-- A new node has the text style of roots, and is not stale. -/
theorem settled_create (h : t.Sound) (hs : t.Settled) : t.create.2.Settled := by
  rintro n ⟨node, hnode, hstale⟩
  have hinherited : t.create.2.inherited n = t.inherited n := by
    refine inherited_congr rfl (t.parent?_create n) fun p hp => ?_
    have hne : p ≠ t.create.1 := by
      rintro rfl
      exact create_fst_notMem h (Forest.mem_of_parent? hp)
    rw [node?_create, if_neg hne]
  rw [hinherited] at hstale
  rcases node?_create_cases hnode with ⟨rfl, rfl⟩ | ⟨-, hbefore⟩
  · refine absurd ?_ hstale
    have hparent : t.parent? t.create.1 = none :=
      Forest.parent?_eq_none (create_fst_notMem h)
    rw [resolved_empty, inherited, hparent]
    rfl
  · rw [isScheduled_of_node? hnode, ← isScheduled_of_node? hbefore]
    exact hs n ⟨node, hbefore, hstale⟩

/-- In all trees that can be reached, stale nodes wait. -/
theorem Reachable.settled {allowed : Tree → Command → Prop} (h : Reachable allowed t) :
    t.Settled := by
  refine h.induction (P := Settled) ?_ ?_ ?_ ?_
  · rintro config fonts font n ⟨node, hnode, -⟩
    simp [withFont, node?] at hnode
  · exact fun t hsound hs => settled_create hsound hs
  · exact fun t t' root applied hsound hok hs => settled_flush hsound hs hok
  · exact fun t c _ _ hc hs => settled_evolves hc hs

/-! ## Pending events -/

/-- Whether only nodes that wait have pending events. -/
def Calm (t : Tree) : Prop :=
  ∀ n node, t.node? n = some node → node.scheduled = false →
    node.table.hasPendingEvents = false

/-- Application collects the events of a node. -/
theorem calm_apply (h : t.Sound) (hc : t.Calm) : (t.apply n).1.Calm := by
  rcases apply_cases h n with ⟨-, hsame⟩ | ⟨node, style, hnode, -, ha, -⟩
  · rw [hsame]
    exact hc
  · intro m after hafter hrests
    rcases ha.node_cases hafter with ⟨-, rfl⟩ | ⟨-, hbefore⟩
    · exact node.table.hasPendingEvents_clearEvents
    · exact hc m after hbefore hrests

theorem calm_evolves {ordered : Prop} (hs : s.Sound) (he : s.Evolves ordered t) (hc : s.Calm) :
    t.Calm := by
  intro n after hafter hrests
  obtain ⟨before, hbefore, hkept⟩ := he.node hafter
  have hcalm := hc n before hbefore (hkept.rests hrests)
  by_contra hpending
  obtain ⟨g, p, entry, hfind, hevent⟩ :=
    (Table.hasPendingEvents_iff hkept.table.tidy.keyed).mp (by simpa using hpending)
  rw [hkept.find? hrests] at hfind
  rw [(Table.hasPendingEvents_iff (hs.tidy hbefore).keyed).mpr ⟨g, p, entry, hfind, hevent⟩]
    at hcalm
  cases hcalm

/-- In all trees that can be reached, only nodes that wait have pending events. -/
theorem Reachable.calm {allowed : Tree → Command → Prop} (h : Reachable allowed t) : t.Calm := by
  refine h.induction (P := Calm) ?_ ?_ ?_ ?_
  · intro config fonts font n node hnode
    simp [withFont, node?] at hnode
  · intro t hsound hc n node hnode hrests
    rcases node?_create_cases hnode with ⟨-, rfl⟩ | ⟨-, hbefore⟩
    · rfl
    · exact hc n node hbefore hrests
  · intro t t' root applied hsound hok hc
    exact flush_induction (P := Calm) (fun _ _ hc => hc) (fun _ _ hs hc => calm_apply hs hc)
      hsound hc hok
  · exact fun t c hsound _ he hc => calm_evolves hsound he hc

/-- **Text styles are right wherever nothing waits.** A node that does not wait has the text style
that follows from its parent's, its own font and its table; and after a flush no node beneath the
root of the flush waits or has pending events. -/
theorem Reachable.text_eq_resolved (h : Reachable AnyCommand t) :
    (∀ n node, t.node? n = some node → node.scheduled = false →
      node.text = .resolved t.fonts (t.inherited n) node.font node.table) ∧
    ∀ root t' applied, t.flush root = .ok (t', applied) →
      ∀ n node, t'.node? n = some node → root ∈ t'.shape.path n →
        node.scheduled = false ∧ node.table.hasPendingEvents = false ∧
          node.text = .resolved t'.fonts (t'.inherited n) node.font node.table := by
  constructor
  · intro n node hnode hrests
    exact h.settled.text_eq hnode hrests
  · intro root t' applied hok n node hnode hroot
    have hrests : node.scheduled = false := by
      rw [← isScheduled_of_node? hnode]
      exact flush_rests h.sound h.queued hok hroot
    have hcalm : t'.Calm :=
      flush_induction (P := Calm) (fun _ _ hc => hc) (fun _ _ hs hc => calm_apply hs hc) h.sound
        h.calm hok
    exact ⟨hrests, hcalm n node hnode hrests,
      (settled_flush h.sound h.settled hok).text_eq hnode hrests⟩

/-- A node that has been left alone, beneath one that was given a font twice as large. -/
theorem text_eq_resolved_child :
    let t := (withFont .default (.ofHost .default fun _ => .fixed 16) .builtIn).run
      [.create, .create, .append ⟨0⟩ ⟨1⟩, .flush ⟨0⟩,
        .set ⟨0⟩ .inline "font-size" [.value (.percentage 200)], .flush ⟨0⟩]
    ∃ node ∈ t.node? ⟨1⟩, node.text.size = 32 ∧
      node.text = .resolved t.fonts (t.inherited ⟨1⟩) node.font node.table := by
  intro t
  have hreach : Reachable AnyCommand t := (Reachable.start _ _ _).run _
  have hlarge : ∃ node ∈ t.node? ⟨1⟩, node.scheduled = false ∧ node.text.size = 32 := by
    decide +kernel
  obtain ⟨node, hnode, hrests, hsize⟩ := hlarge
  exact ⟨node, hnode, hsize, hreach.text_eq_resolved.1 ⟨1⟩ node hnode hrests⟩

/-- The numbers of a text style are not always exactly those that it is to have: beneath a node with
font size zero, minus zero is not taken over. -/
theorem not_every_text_is_exact :
    ¬ ∀ t, Reachable AnyCommand t → ∀ n, ∀ node ∈ t.node? n, node.scheduled = false →
      node.text.size = TextStyle.sizeFrom t.fonts (t.inherited n)
        (node.font.getD (t.inherited n).font) (node.table.values? .fontSize) := by
  intro hall
  let t := (withFont .default (.ofHost .default fun _ => .fixed 16) .builtIn).run
    [.create, .create, .append ⟨0⟩ ⟨1⟩, .flush ⟨0⟩,
      .set ⟨0⟩ .inline "font-size" [.value (.pixels 0)], .flush ⟨0⟩,
      .set ⟨1⟩ .inline "font-size" [.value (.pixels (.zero true))], .flush ⟨0⟩]
  have hreach : Reachable AnyCommand t := (Reachable.start _ _ _).run _
  have hdiffers : ¬ ∀ node ∈ t.node? ⟨1⟩, node.scheduled = false →
      node.text.size = TextStyle.sizeFrom t.fonts (t.inherited ⟨1⟩)
        (node.font.getD (t.inherited ⟨1⟩).font) (node.table.values? .fontSize) := by
    decide +kernel
  exact hdiffers (hall t hreach ⟨1⟩)

end Tree

end FlexStyle
