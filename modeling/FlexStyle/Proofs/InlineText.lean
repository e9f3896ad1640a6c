import FlexStyle.Proofs.Arguments
import FlexStyle.Proofs.Declaration
import FlexStyle.Proofs.Table.WriteOrder
import FlexStyle.Proofs.Tree.Run

/-!
# Inline text carries the inline group

The inline group of one node, written as declarations and read by another one, arrives there as it
was: the same properties in the same order with the same values.

- `Table.liveIn_copyFrom_clear`: what a group holds after it was cleared and copied to.
- `Tree.wellFormed_declaration`, `Tree.arguments_eq`: the declaration of an entry, and the arguments
  that its value is cut into.
- `Tree.setText_declaration`, `Tree.declare_declarations`: what reading declarations writes.
- `Tree.Delivers`, `Tree.Reachable.inlineText_delivered`: the whole text.
-/

namespace FlexStyle

/-! ## Replacing a group -/

/-- Into an entry without values, a write stores exactly what it is asked to. -/
theorem Entry.values_write_of_isRemoved {κ : Type} {entry : Entry κ}
    (h : entry.isRemoved = true) {values : List Value} (hne : values.isEmpty = false) :
    (entry.write values).1.values = values := by
  have hvalues : entry.values = [] := List.isEmpty_iff.mp h
  rw [write_of_ne_nil entry hne, hvalues]
  cases values with
  | nil => cases hne
  | cons v rest => rfl

namespace Table

variable {t source : Table Property}

theorem isRemoved_entry_clear (t : Table Property) (g : Group) (p : Property) :
    ((t.clear (some g)).1.entry g p).isRemoved = true := by
  rw [entry_clear, if_pos (by simp [Group.isIn])]
  exact Entry.isRemoved_clear _

theorem live_clear (t : Table Property) (g : Group) : (t.clear (some g)).1.live g = [] := by
  rw [live, entries_clear, if_pos (by simp [Group.isIn]), List.filter_map]
  simp

/-- A copy into a group that has been cleared makes its live entries those of the source. -/
theorem liveIn_copyFrom_clear (h : t.Keyed) (hs : source.Keyed) (g : Group) :
    ((t.clear (some g)).1.copyFrom source (some g)).1.liveIn g = source.liveIn g := by
  rw [liveIn, live_copyFrom (keyed_clear h _) hs (by simp [Group.isIn]), live_clear,
    List.filter_nil, List.nil_append, List.map_map, liveIn]
  refine List.map_congr_left fun entry hmem => ?_
  have hne : entry.values.isEmpty = false := isRemoved_of_mem_live hmem
  rw [Function.comp_apply, Entry.key_write, key_entry,
    Entry.values_write_of_isRemoved (isRemoved_entry_clear t g entry.key) hne]

theorem entries_copyFrom_clear (h : t.Keyed) (hs : source.Keyed) {g g' : Group} (hne : g' ≠ g) :
    ((t.clear (some g)).1.copyFrom source (some g)).1.entries g' = t.entries g' := by
  have hnot : g'.isIn (some g) = false := by simpa [Group.isIn] using hne.symm
  have hcopy := executes_of_keyed (keyed_clear h (some g)) (c := .copyFrom source (some g)) hs
  refine ((hcopy.copied source (some g) rfl).2 g' hnot).trans ?_
  rw [entries_clear, hnot]
  rfl

/-- A copy of one group is made of the writes of its live entries. -/
theorem copyFrom_eq_foldChanges (t source : Table Property) (g : Group) :
    t.copyFrom source (some g) =
      foldChanges (fun t (entry : Entry Property) => t.set g entry.key entry.values) t
        (source.live g) := by
  have hitems : source.copied (some g) = (source.live g).map (g, ·) := by
    unfold copied list live
    cases g <;> simp [Group.applicationOrder, List.filter_map, Function.comp_def, Group.isIn]
  show foldChanges _ t (source.copied (some g)) = _
  rw [hitems, foldChanges_map]

end Table

namespace Tree

/-! ## The declaration of an entry -/

/-- Whether an entry is live and holds values that its property takes and whose texts are read
back. -/
structure Writable (entry : Entry Property) : Prop where
  live : entry.isRemoved = false
  admits : entry.key.Admits entry.values
  readsBack : ∀ v ∈ entry.values, v.ReadsBack

/-- The texts of the values of an entry. -/
def pieces (entry : Entry Property) : List (List Char) := entry.values.map (·.text.toList)

section Entries

variable {entry : Entry Property}

theorem exists_pieces (h : entry.isRemoved = false) :
    ∃ (v : Value) (rest : List (List Char)), pieces entry = v.text.toList :: rest := by
  obtain ⟨v, rest, hvalues⟩ : ∃ v rest, entry.values = v :: rest :=
    List.exists_cons_of_ne_nil fun hempty => by simp [Entry.isRemoved, hempty] at h
  exact ⟨v, _, by rw [pieces, hvalues, List.map_cons]⟩

theorem bare_of_mem_pieces {piece : List Char} (h : piece ∈ pieces entry) : Text.Bare piece := by
  obtain ⟨v, -, rfl⟩ := List.mem_map.mp h
  exact v.bare_text

/-- No value is written as nothing, and none with a space. -/
theorem pieces_spec (entry : Entry Property) :
    ∀ piece ∈ pieces entry, piece ≠ [] ∧ ∀ c ∈ piece, Text.isSpace c = false := by
  intro piece hmem
  refine ⟨?_, fun c hc => Text.isSpace_of_isBare (bare_of_mem_pieces hmem c hc)⟩
  obtain ⟨v, -, rfl⟩ := List.mem_map.mp hmem
  exact v.text_ne_nil

/-- The declaration of an entry: its name, and its values with a space between two. -/
theorem declaration_eq (entry : Entry Property) :
    (declaration entry).property = entry.key.name ∧
      (declaration entry).value.toList = [' '].intercalate (pieces entry) := by
  have hname : Text.trim Text.isSpace entry.key.name.toList = entry.key.name.toList :=
    Text.trim_of_forall fun c hc =>
      Text.isSpace_of_isBare (Name.bare_of_isWord entry.key.name_spec.1 c hc)
  have hvalue : (" ".intercalate (entry.values.map (·.text))).toList =
      [' '].intercalate (pieces entry) := by
    rw [String.toList_intercalate, List.map_map]
    rfl
  constructor
  · simp only [declaration, Declaration.tidy, hname, String.ofList_toList, Property.lower_name]
  · simp only [declaration, Declaration.tidy, hvalue, Text.trim_intercalate (pieces_spec entry),
      String.toList_ofList]

theorem wellFormed_declaration (h : entry.isRemoved = false) : (declaration entry).WellFormed := by
  obtain ⟨hproperty, hvalue⟩ := declaration_eq entry
  have hbare := Name.bare_of_isWord entry.key.name_spec.1
  refine ⟨?_, ?_, ?_, ?_, ?_, ?_, ?_⟩
  · rw [hproperty]
    intro hnil
    have hword := entry.key.name_spec.1
    rw [hnil] at hword
    cases hword
  · intro hnil
    obtain ⟨v, rest, hpieces⟩ := exists_pieces h
    rw [hnil, hpieces] at hvalue
    exact Text.intercalate_ne_nil v.text_ne_nil rest hvalue.symm
  · rw [hproperty]
    exact fun c hc => Text.ne_of_isBare (hbare c hc)
  · rw [hvalue]
    intro c hc
    rcases Text.mem_intercalate hc with rfl | ⟨piece, hmem, hc⟩
    · decide
    · exact (Text.ne_of_isBare (bare_of_mem_pieces hmem c hc)).2
  · rw [hproperty]
    exact Text.trim_of_forall fun c hc => Text.isSpace_of_isBare (hbare c hc)
  · rw [hvalue, Text.trim_intercalate (pieces_spec entry)]
  · rw [hproperty, Property.lower_name]

/-- The value of a declaration is cut into the texts of the single values. -/
theorem arguments_eq (entry : Entry Property) :
    arguments [.text (declaration entry).value] =
      entry.values.map fun v => .text v.text := by
  rw [arguments, (declaration_eq entry).2, Text.words_intercalate (pieces_spec entry), pieces,
    List.map_map]
  simp [Function.comp_def]

/-- The value of a declaration is not blank. -/
theorem isUnspecified_declaration (h : entry.isRemoved = false) :
    (Raw.text (declaration entry).value).isUnspecified = false := by
  obtain ⟨v, rest, hpieces⟩ := exists_pieces h
  obtain ⟨c, tail, htext⟩ := List.exists_cons_of_ne_nil v.text_ne_nil
  have hc : Text.isBare c = true := v.bare_text c (htext ▸ List.mem_cons_self)
  rw [Raw.isUnspecified, (declaration_eq entry).2, hpieces, htext]
  cases rest <;> simp [List.intercalate_cons_cons, Text.isBlank_of_isBare hc]

end Entries

/-! ## Reading declarations -/

variable {t t' t'' : Tree} {n m : NodeId} {node : Node} {table table' : Table Property}

/-- Whether a tree is another one with a given table in one node. What the tree has planned, and
what that node remembers besides its table, is left open. -/
structure Replaces (t : Tree) (n : NodeId) (table : Table Property) (t' : Tree) : Prop where
  table : (t'.node? n).map (·.table) = some table
  others : ∀ m, m ≠ n → t'.node? m = t.node? m

namespace Replaces

theorem refl (hnode : t.node? n = some node) : t.Replaces n node.table t := by
  constructor
  · rw [hnode, Option.map_some]
  · intro m _
    rfl

theorem trans (h : t.Replaces n table t') (h' : t'.Replaces n table' t'') :
    t.Replaces n table' t'' :=
  ⟨h'.table, fun m hm => (h'.others m hm).trans (h.others m hm)⟩

theorem modify (hnode : t.node? n = some node) (change : Node → Node) :
    t.Replaces n (change node).table (t.modify n change) := by
  constructor
  · simp [node?_modify, hnode]
  · intro m hm
    rw [node?_modify, if_neg hm]

theorem schedule (h : t.Replaces n table t') : t.Replaces n table (t'.schedule n) := by
  constructor
  · rw [node?_schedule, if_pos rfl, Option.map_map]
    exact h.table
  · intro m hm
    rw [node?_schedule, if_neg hm, h.others m hm]

theorem exists_node (h : t.Replaces n table t') : ∃ node, t'.node? n = some node ∧
    node.table = table := Option.map_eq_some_iff.mp h.table

end Replaces

theorem replaces_changeTable (hnode : t.node? n = some node)
    (change : Table Property → Table Property × Bool) :
    t.Replaces n (change node.table).1 (t.changeTable n change).1 := by
  have hmodify := Replaces.modify hnode fun other =>
    { other with table := (change node.table).1 }
  rw [changeTable, hnode]
  dsimp only
  -- a change is scheduled only if it is reported
  split
  · exact hmodify.schedule
  · exact hmodify

/-- Reading the declaration of an entry writes its values. -/
theorem setText_declaration (hnode : t.node? n = some node) {entry : Entry Property}
    (h : Writable entry) :
    t.setText n .inline (declaration entry).property (declaration entry).value =
      ((t.modify n fun node =>
        { node with table := (node.table.set .inline entry.key entry.values).1 }).schedule n,
          true) := by
  have hcontains : t.contains n = true := contains_iff.mpr ⟨node, hnode⟩
  rw [setText, set, (declaration_eq entry).1, Property.ofName?_name]
  simp only [List.all_cons, List.all_nil, isUnspecified_declaration h.live, Bool.false_and,
    Bool.false_eq_true, if_false, arguments_eq, h.admits.accept?_texts h.readsBack, hcontains]

/-- The writes of the values of some entries to the inline group. -/
def writeAll (table : Table Property) (entries : List (Entry Property)) : Table Property :=
  (foldChanges (fun t (entry : Entry Property) => t.set .inline entry.key entry.values) table
    entries).1

/-- Reading the declarations of entries writes the values of one after another, to one node. -/
theorem declare_declarations (hnode : t.node? n = some node) {entries : List (Entry Property)}
    (h : ∀ entry ∈ entries, Writable entry) :
    (t.declare n (entries.map declaration)).2 = true ∧
      t.Replaces n (writeAll node.table entries) (t.declare n (entries.map declaration)).1 := by
  induction entries generalizing t node with
  | nil => exact ⟨rfl, .refl hnode⟩
  | cons entry rest ih =>
    have hfirst := setText_declaration hnode (h entry List.mem_cons_self)
    have hwritten := (Replaces.modify hnode fun node =>
      { node with table := (node.table.set .inline entry.key entry.values).1 }).schedule
    obtain ⟨next, hnext, htable⟩ := hwritten.exists_node
    obtain ⟨haccepted, hrest⟩ := ih hnext fun entry hmem => h entry (List.mem_cons_of_mem _ hmem)
    simp only [List.map_cons, declare, hfirst]
    refine ⟨by simpa using haccepted, hwritten.trans ?_⟩
    rw [htable] at hrest
    rwa [writeAll, foldChanges_cons]

/-! ## From one node to another -/

/-- The properties and values that are live in the inline group of a node, in order. -/
def inlineEntries (t : Tree) (n : NodeId) : List (Property × List Value) :=
  ((t.node? n).map (·.table.liveIn .inline)).getD []

/-- The text of the inline group depends on what is live in it alone. -/
theorem inlineText_congr {t' : Tree} (h : t'.inlineEntries m = t.inlineEntries n) :
    t'.inlineText m = t.inlineText n := by
  have htext : ∀ (t : Tree) (n : NodeId), t.inlineText n = Declaration.text
      ((t.inlineEntries n).map fun item => declaration { key := item.1, values := item.2 }) := by
    intro t n
    rw [inlineText, inlineEntries]
    cases t.node? n with
    | none => rfl
    | some node =>
      rw [Option.map_some, Option.getD_some, Table.liveIn, List.map_map]
      rfl
  rw [htext, htext, h]

/-- What a tree looks like after the inline text of one node has been given to another one. -/
structure Delivers (t : Tree) (source target : NodeId) (result : Tree × Bool) : Prop where
  /-- All declarations are accepted. -/
  accepted : result.2 = true
  /-- The inline group of the target is that of the source: properties, values and order. -/
  inline : result.1.inlineEntries target = t.inlineEntries source
  text : result.1.inlineText target = t.inlineText source
  /-- The other groups of the target are as they were. -/
  groups : ∀ g, g ≠ .inline →
    (result.1.node? target).map (·.table.entries g) = (t.node? target).map (·.table.entries g)
  /-- All other nodes are as they were. -/
  others : ∀ m, m ≠ target → result.1.node? m = t.node? m

/-- The declarations of an inline text are those of the live entries. -/
theorem list_inlineText (hnode : t.node? n = some node) :
    Declaration.list (t.inlineText n) = (node.table.live .inline).map declaration := by
  rw [inlineText, hnode]
  refine Declaration.list_text fun d hd => ?_
  obtain ⟨entry, hmem, rfl⟩ := List.mem_map.mp hd
  exact wellFormed_declaration (Table.isRemoved_of_mem_live hmem)

/-- What is live in the inline group of a reachable tree can be written. -/
theorem Reachable.writable (h : Reachable AnyCommand t) (hnode : t.node? n = some node)
    (hback : ∀ item ∈ t.inlineEntries n, ∀ v ∈ item.2, v.ReadsBack) :
    ∀ entry ∈ node.table.live .inline, Writable entry := by
  intro entry hmem
  have htidy := h.sound.tidy hnode
  have hlive := Table.isRemoved_of_mem_live hmem
  refine ⟨hlive, ?_, hback (entry.key, entry.values) ?_⟩
  · exact htidy.admits (Table.find?_of_mem htidy.keyed (List.mem_filter.mp hmem).1) hlive
  · rw [inlineEntries, hnode]
    exact List.mem_map.mpr ⟨entry, hmem, rfl⟩

/-- The inline text of one node, given to another one, makes the table of that node one that was
cleared and copied to. -/
theorem setInlineText_inlineText {source target : NodeId} {giver taker : Node}
    (hgiver : t.node? source = some giver) (htaker : t.node? target = some taker)
    (h : ∀ entry ∈ giver.table.live .inline, Writable entry) :
    (t.setInlineText target (t.inlineText source)).2 = true ∧
      t.Replaces target
        ((taker.table.clear (some .inline)).1.copyFrom giver.table (some .inline)).1
        (t.setInlineText target (t.inlineText source)).1 := by
  have htarget : t.contains target = true := contains_iff.mpr ⟨taker, htaker⟩
  have hcleared : t.Replaces target (taker.table.clear (some .inline)).1
      (t.clear target (some .inline)).1 :=
    replaces_changeTable htaker (·.clear (some .inline))
  -- the declarations are written to the cleared table, as a copy would be
  obtain ⟨node, hnode, htable⟩ := hcleared.exists_node
  obtain ⟨haccepted, hdeclared⟩ := declare_declarations hnode h
  rw [setInlineText, htarget, if_pos rfl, list_inlineText hgiver]
  refine ⟨haccepted, hcleared.trans ?_⟩
  rwa [htable, writeAll, ← Table.copyFrom_eq_foldChanges] at hdeclared

/-- **Inline text carries the inline group.** Given to any node, the inline text of a node makes the
inline group of the one that of the other, if the numbers in it are finite and their digits are read
back. -/
theorem Reachable.inlineText_delivered (h : Reachable AnyCommand t) {source target : NodeId}
    (hsource : t.contains source = true) (htarget : t.contains target = true)
    (hback : ∀ item ∈ t.inlineEntries source, ∀ v ∈ item.2, v.ReadsBack) :
    t.Delivers source target (t.setInlineText target (t.inlineText source)) := by
  obtain ⟨giver, hgiver⟩ := contains_iff.mp hsource
  obtain ⟨taker, htaker⟩ := contains_iff.mp htarget
  have hgiverKeyed := (h.sound.tidy hgiver).keyed
  have htakerKeyed := (h.sound.tidy htaker).keyed
  obtain ⟨haccepted, hreplaces⟩ :=
    setInlineText_inlineText hgiver htaker (h.writable hgiver hback)
  obtain ⟨after, hafter, htable⟩ := hreplaces.exists_node
  have hinline : (t.setInlineText target (t.inlineText source)).1.inlineEntries target =
      t.inlineEntries source := by
    rw [inlineEntries, hafter, inlineEntries, hgiver]
    dsimp only [Option.map_some, Option.getD_some]
    rw [htable]
    exact Table.liveIn_copyFrom_clear htakerKeyed hgiverKeyed .inline
  have hgroups : ∀ g, g ≠ .inline → after.table.entries g = taker.table.entries g := by
    intro g hg
    rw [htable]
    exact Table.entries_copyFrom_clear htakerKeyed hgiverKeyed hg
  refine ⟨haccepted, hinline, inlineText_congr hinline, fun g hg => ?_, hreplaces.others⟩
  rw [hafter, htaker, Option.map_some, Option.map_some, hgroups g hg]

/-- A margin of two values, one of them a fractional percentage, and a factor are delivered. -/
theorem inlineText_delivered_margin :
    let t := (withFont .default (.ofHost .default fun _ => .fixed 16) .builtIn).run
      [.create, .create, .set ⟨0⟩ .inline "margin" [.value (.pixels 1), .text "12.5%"],
        .set ⟨0⟩ .inline "flex-grow" [.integer 2], .set ⟨1⟩ .inline "width" [.value .auto]]
    t.inlineText ⟨0⟩ = "margin: 1px 12.5%; flex-grow: 2;" ∧
      t.Delivers ⟨0⟩ ⟨1⟩ (t.setInlineText ⟨1⟩ (t.inlineText ⟨0⟩)) := by
  intro t
  have hreach : Reachable AnyCommand t := (Reachable.start _ _ _).run _
  obtain ⟨htext, hsource, htarget, hentries⟩ :
      t.inlineText ⟨0⟩ = "margin: 1px 12.5%; flex-grow: 2;" ∧ t.contains ⟨0⟩ = true ∧
        t.contains ⟨1⟩ = true ∧ t.inlineEntries ⟨0⟩ =
          [(.edges .margin, [.pixels 1, .percentage (.ofRatio 25 2)]),
            (.factor .flexGrow, [.number 2])] := by
    decide +kernel
  have hone : (1 : Single).isFinite = true ∧ Number.ReadsBack 1 :=
    ⟨by decide +kernel, some 1, by decide +kernel⟩
  have htwo : (2 : Single).isFinite = true ∧ Number.ReadsBack 2 :=
    ⟨by decide +kernel, some 2, by decide +kernel⟩
  have hhalf : (Binary.ofRatio 25 2 : Single).isFinite = true := by decide +kernel
  refine ⟨htext, hreach.inlineText_delivered hsource htarget fun item hitem v hv => ?_⟩
  rw [hentries] at hitem
  simp only [List.mem_cons, List.not_mem_nil, or_false] at hitem
  rcases hitem with rfl | rfl
  · simp only [List.mem_cons, List.not_mem_nil, or_false] at hv
    rcases hv with rfl | rfl
    · exact hone
    · exact hhalf
  · cases List.mem_singleton.mp hv
    exact htwo

end Tree

end FlexStyle
