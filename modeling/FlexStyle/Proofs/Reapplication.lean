import FlexStyle.Proofs.Box.Agreement
import FlexStyle.Proofs.Cascade
import FlexStyle.Proofs.Independence
import FlexStyle.Proofs.Marks
import FlexStyle.Proofs.Table.NetChange

/-!
# Nodes applied anew

A node that is scheduled although its live entries are as they were is applied all the same, and all
its entries are installed again. The box is marked if any of these installations reports a change.
So it may be marked although its record comes out as it was: where two live entries write data that
differ to one field, the first takes back what the last has written; and the parts of the text style
are compared with what the node inherits, not with what it had.

- `Table.Inherits`: whether a table asks for the text style that is inherited anyway.
- `Table.written`: what the live entries write. It is all that a table writes without removals to
  look at (`Table.boxAssignments_eq_written`).
- `Tree.Turn`, `Tree.exists_turn`: the one application of a node within a flush.
- `Tree.Steady`: when an application finds nothing to change; `Tree.steady_iff` says that its two
  steps tell so.
- `Tree.Reachable.reapplied_iff`: a node that is applied anew keeps its box as it is exactly if it
  is steady.
- `Tree.Reachable.holds_iff`: boxes have what the live entries write last, but for `flex-flow`.
-/

namespace FlexStyle

namespace Table

variable {s t : Table Property} {metrics : RelativeMetrics} {initial style : BoxStyle}
  {fonts : Fonts} {above : TextStyle} {own : Option FontId}

/-! ## Values that count -/

/-- The values that a group holds for a property. -/
def liveValues? (t : Table Property) (g : Group) (p : Property) : Option (List Value) :=
  ((t.find? g p).filter (!·.isRemoved)).map (·.values)

theorem liveValues?_eq_some_iff (h : t.Keyed) {g : Group} {p : Property} {values : List Value} :
    t.liveValues? g p = some values ↔ (g, p, values) ∈ t.liveList := by
  rw [mem_liveList, liveValues?]
  constructor
  · intro hlive
    obtain ⟨entry, hentry, rfl⟩ := Option.map_eq_some_iff.mp hlive
    obtain ⟨hfind, hrem⟩ := Option.filter_eq_some_iff.mp hentry
    exact ⟨entry, mem_of_find? hfind, by simpa using hrem, key_of_find? hfind, rfl⟩
  · rintro ⟨entry, hmem, hrem, rfl, rfl⟩
    rw [find?_of_mem h hmem, Option.filter_some, hrem]
    rfl

theorem values?_eq (t : Table Property) (p : Property) :
    t.values? p = Group.cascadeOrder.findSome? fun g => t.liveValues? g p := by
  rw [values?, cascaded?, List.map_findSome?]
  refine congrArg (List.findSome? · _) (funext fun g => ?_)
  rw [liveValues?, Function.comp_apply, Option.map_map]
  rfl

/-- The values that count are those of live entries. -/
theorem values?_of_liveList (hs : s.Keyed) (ht : t.Keyed) (h : t.liveList = s.liveList)
    (p : Property) : t.values? p = s.values? p := by
  have hlive : ∀ g, t.liveValues? g p = s.liveValues? g p := by
    intro g
    ext values
    rw [liveValues?_eq_some_iff ht, liveValues?_eq_some_iff hs, h]
  rw [values?_eq, values?_eq]
  simp only [hlive]

/-! ## The text style -/

theorem textStep?_eq (fonts : Fonts) (above : TextStyle) (font : FontId) (t : Table Property)
    (p : Property) :
    t.textStep? fonts above font p =
      match t.values? p with
      | some values => p.textAssignment? fonts above font values
      | none => p.textReset? above := by
  unfold textStep? values?
  cases t.cascaded? p <;> rfl

/-- Whether all that a table asks for in the text style compares as equal to what is inherited. -/
def Inherits (fonts : Fonts) (above : TextStyle) (own : Option FontId) (t : Table Property) :
    Prop :=
  ∀ p ∈ Property.textDefining, ∀ a,
    t.textStep? fonts above (own.getD above.font) p = some a → above.agrees a = true

theorem inherits_congr (h : ∀ p, t.values? p = s.values? p) :
    t.Inherits fonts above own ↔ s.Inherits fonts above own := by
  simp only [Inherits, textStep?_eq, h]

/-- The text style tells of a change exactly if it differs from what is inherited. -/
theorem applyText_snd_eq_false_iff :
    (t.applyText fonts above (own.getD above.font)).2 = false ↔ t.Inherits fonts above own := by
  have hassign : ∀ (s : TextStyle) a, (s.assign a).2 = false ↔ s.agrees a = true := by
    intro s a
    unfold TextStyle.assign
    split <;> simp_all
  have hstep : ∀ (s : TextStyle) a, (s.assign a).2 = false → (s.assign a).1 = s := by
    intro s a h
    rw [TextStyle.assign, if_pos ((hassign s a).mp h)]
  -- the font takes no part in the comparison
  have hfont : ∀ a, ({ above with font := own.getD above.font } : TextStyle).agrees a =
      above.agrees a := by
    intro a
    cases a <;> rfl
  rw [applyText, foldChanges_snd_eq_false_iff _ hstep, Inherits]
  simp only [hassign, hfont, List.mem_filterMap]
  constructor
  · exact fun h p hp a ha => h a ⟨p, hp, ha⟩
  · rintro h a ⟨p, hp, ha⟩
    exact h p hp a ha

/-! ## The box record -/

/-- All that the live entries write to a box record, in the order of application. -/
def written (metrics : RelativeMetrics) (t : Table Property) : List Assignment :=
  t.liveList.flatMap fun (_, p, values) => p.assignments metrics values

theorem assignmentsAfter_of_not_isGone {passed : Passed} {rows : List (Entry Property)}
    (h : ∀ entry ∈ rows, entry.isGone = false) :
    assignmentsAfter metrics initial passed rows =
      (rows.filter (!·.isRemoved)).flatMap fun entry =>
        entry.key.assignments metrics entry.values := by
  induction rows generalizing passed with
  | nil => rfl
  | cons entry rest ih =>
    have hrest : ∀ later ∈ rest, later.isGone = false :=
      fun later hlater => h later (List.mem_cons_of_mem _ hlater)
    cases hrem : entry.isRemoved with
    | false =>
      rw [assignmentsAfter_live hrem, ih hrest, List.filter_cons_of_pos (by simp [hrem]),
        List.flatMap_cons]
    | true =>
      rw [assignmentsAfter_idle hrem (h entry List.mem_cons_self), ih hrest,
        List.filter_cons_of_neg (by simp [hrem])]

theorem lastTo?_written (metrics : RelativeMetrics) (f : Field) (t : Table Property) :
    lastTo? f (t.written metrics) =
      t.liveList.reverse.findSome? fun (_, p, values) =>
        lastTo? f (p.assignments metrics values) := by
  unfold written
  induction t.liveList with
  | nil => rfl
  | cons item rest ih =>
    rw [List.flatMap_cons, lastTo?_append, ih, List.reverse_cons, List.findSome?_append,
      List.findSome?_singleton]

/-- What the live entries ask for is what they write last. -/
theorem eq_of_prescribes {f : Field} {d d' : Datum} (hasked : t.Prescribes metrics initial f d')
    (hd : lastTo? f (t.written metrics) = some d) : d' = d := by
  have hnot : ∀ {items : List (Group × Property × List Value)},
      (∀ item ∈ items, item.2.1.writes f = false) →
        (items.findSome? fun (_, p, values) => lastTo? f (p.assignments metrics values)) = none :=
    fun h => List.findSome?_eq_none_iff.mpr fun item hitem =>
      Property.lastTo?_assignments_of_not_writes (h item hitem)
  rw [lastTo?_written] at hd
  unfold Prescribes at hasked
  cases hlast : t.lastWriter? f with
  | none =>
    rw [lastWriter?, List.find?_eq_none] at hlast
    rw [hnot fun item hitem => by simpa using hlast item hitem] at hd
    cases hd
  | some item =>
    obtain ⟨g, p, values⟩ := item
    rw [hlast] at hasked
    obtain ⟨-, later, earlier, hsplit, hlater⟩ := List.find?_eq_some_iff_append.mp hlast
    rw [hsplit, List.findSome?_append, hnot fun item hitem => by simpa using hlater item hitem,
      Option.none_or, List.findSome?_cons] at hd
    dsimp only at hasked hd
    rw [hasked] at hd
    exact Option.some.inj hd

/-- A table without removals to look at writes what its live entries write. -/
theorem boxAssignments_eq_written (h : ∀ entry ∈ t.rows, entry.isGone = false) :
    t.boxAssignments metrics initial = t.written metrics := by
  rw [boxAssignments_eq, assignmentsAfter_of_not_isGone h, written, liveList_eq_list, rows,
    List.filter_map, List.flatMap_map, List.flatMap_map]
  rfl

/-- If what is live is as it was when the events were cleared, then nothing is gone. -/
theorem not_isGone_of_evolves (hs : s.Keyed) (hquiet : s.hasPendingEvents = false)
    (he : s.Evolves t) (hlive : t.liveList = s.liveList) :
    ∀ entry ∈ t.rows, entry.isGone = false := by
  intro entry hrow
  by_contra hgone
  obtain ⟨hrem, hevent⟩ : entry.isRemoved = true ∧ entry.event = .removed := by
    simpa [Entry.isGone] using hgone
  obtain ⟨g, hmem⟩ := exists_mem_of_mem_rows hrow
  have hfind := find?_of_mem he.tidy.keyed hmem
  -- what is gone was live
  have hwas : s.wasLive g entry.key = true := by
    rw [← he.wasLive, wasLive, hfind, Option.any_some, Entry.wasLive, hevent]
  obtain ⟨old, hold, holdLive⟩ := (Option.any_eq_true _ _).mp hwas
  have hnone : old.event = .none := by
    have hentry := event_entry_eq_none hs hquiet g entry.key
    rwa [Table.entry, hold] at hentry
  have holdRem : old.isRemoved = false := by simpa [Entry.wasLive, hnone] using holdLive
  -- so it is still live
  have hitem : (g, entry.key, old.values) ∈ t.liveList := by
    rw [hlive, mem_liveList]
    exact ⟨old, mem_of_find? hold, holdRem, key_of_find? hold, rfl⟩
  obtain ⟨now, hnow, hnowRem, hkey, -⟩ := mem_liveList.mp hitem
  have hsame := find?_of_mem he.tidy.keyed hnow
  rw [hkey, hfind] at hsame
  cases hsame
  rw [hrem] at hnowRem
  cases hnowRem

end Table

namespace Tree

variable {s t t' : Tree} {n root : NodeId} {node after : Node} {style : BoxStyle}
  {nodes applied : List NodeId} {c : Command}

/-! ## One application within a flush -/

theorem inherited_applyEach (h : t.Sound) (hparent : ∀ p, t.parent? n = some p → p ∉ nodes) :
    (t.applyEach nodes).inherited n = t.inherited n := by
  have hbase := base_applyEach h nodes
  refine inherited_congr hbase.rootText ?_ fun p hp => ?_
  · rw [Tree.parent?, hbase.shape, Tree.parent?]
  · rw [node?_applyEach_of_notMem h (hparent p hp)]

/-- A tree `u` between two applications of a flush from `t` to `t'`, when it is the turn of a node:
the node and its box are as they were before the flush, and come out of it as this application
leaves them; what the node inherits has been settled. -/
structure Turn (t u t' : Tree) (n : NodeId) (node : Node) : Prop where
  sound : u.Sound
  fonts : t'.fonts = u.fonts
  initial : t'.store.initial = u.store.initial
  inherited : t'.inherited n = u.inherited n
  node? : u.node? n = some node
  slot? : u.store.slot? node.box = t.store.slot? node.box
  settled : t'.node? n = some (node.settled (u.foundText n node))
  written : t'.store.slot? node.box = (u.apply n).1.store.slot? node.box

/-- A flush that applies a node does so once. -/
theorem exists_turn (h : t.Sound) (hok : t.flush root = .ok (t', applied)) (hn : n ∈ applied)
    (hnode : t.node? n = some node) : ∃ u : Tree, Turn t u t' n node := by
  have hvisits := visits_flush h hok
  have hsound := h.with_queue (t.leftOver root)
  obtain ⟨before, later, rfl⟩ := List.append_of_mem hn
  obtain ⟨-, hnd, hdisj⟩ := List.nodup_append'.mp hvisits.nodup
  have hbefore : n ∉ before := fun hmem => hdisj hmem List.mem_cons_self
  obtain ⟨-, horder, -⟩ := List.pairwise_append.mp hvisits.parents_first
  have hlater : n ∉ later := (List.nodup_cons.mp hnd).1
  generalize hu : { t with queue := t.leftOver root }.applyEach before = u
  have husound : u.Sound := hu ▸ sound_applyEach hsound before
  have hunode : u.node? n = some node := by
    rw [← hu, node?_applyEach_of_notMem hsound hbefore]
    exact hnode
  have htree : t' = u.applyEach (n :: later) := by
    rw [hvisits.tree, applyEach_append, hu]
  have hbase : u.SameBase t' := htree ▸ base_applyEach husound (n :: later)
  obtain ⟨style, hstyle⟩ := husound.housed hunode
  have hsettled := (apply_of_some hunode hstyle).1.node? n
  rw [if_pos rfl] at hsettled
  refine ⟨u, husound, hbase.fonts, hbase.initial, ?_, hunode, ?_, ?_, ?_⟩
  · -- no parent comes after its child
    rw [htree, inherited_applyEach husound]
    intro p hp hmem
    have hparent : t.parent? n = some p := by
      rw [← hu, Tree.parent?, (base_applyEach hsound before).shape] at hp
      exact hp
    rcases List.mem_cons.mp hmem with rfl | hmem
    · have hdepth := Forest.depth_of_parent? h.nodup hparent
      omega
    · exact (List.pairwise_cons.mp horder).1 p hmem hparent
  · rw [← hu]
    exact slot?_applyEach hsound hnode hbefore
  · rw [htree, applyEach_cons, node?_applyEach_of_notMem (sound_apply husound n) hlater, hsettled]
  · -- the box is still that of the node once it is settled
    have hlast := slot?_applyEach (sound_apply husound n) hsettled hlater
    rw [htree, applyEach_cons]
    exact hlast

/-- A node that is there after a flush has had its turn, or the flush has left it as it was. -/
theorem flush_node_cases (h : t.Sound) (hok : t.flush root = .ok (t', applied))
    (hafter : t'.node? n = some after) :
    (n ∈ applied ∧ ∃ node u, t.node? n = some node ∧ Turn t u t' n node ∧
        after = node.settled (u.foundText n node)) ∨
      (t.node? n = some after ∧ t'.store.slot? after.box = t.store.slot? after.box) := by
  by_cases hn : n ∈ applied
  · obtain ⟨node, hnode⟩ := contains_iff.mp
      ((contains_flush h hok n).symm.trans (contains_iff.mpr ⟨after, hafter⟩))
    obtain ⟨u, hu⟩ := exists_turn h hok hn hnode
    exact .inl ⟨hn, node, u, hnode, hu, Option.some.inj (hafter.symm.trans hu.settled)⟩
  · have hbefore : t.node? n = some after := (node?_flush_of_notMem h hok hn).symm.trans hafter
    exact .inr ⟨hbefore, slot?_flush_of_notMem h hok hbefore hn⟩

/-- A box comes out of a flush with the record that the turn of its node has found. -/
theorem Turn.style? {u : Tree} (hu : Turn t u t' n node)
    (hstyle : t.store.style? node.box = some style) :
    t'.store.style? node.box = some (u.foundStyle n node style) := by
  have hfound : u.store.style? node.box = some style := by
    rw [BoxStore.style?, hu.slot?]
    exact hstyle
  rw [BoxStore.style?, hu.written]
  exact ((apply_of_some hu.node? hfound).1.style? node.box).trans (if_pos rfl)

/-- The application finds the node and its box as they were before the flush, and what the node
inherits after it. -/
theorem exists_application (h : t.Sound) (hok : t.flush root = .ok (t', applied)) (hn : n ∈ applied)
    (hnode : t.node? n = some node) :
    ∃ u : Tree, u.fonts = t.fonts ∧ u.node? n = some node ∧
      u.store.slot? node.box = t.store.slot? node.box ∧ u.inherited n = t'.inherited n ∧
      t'.store.slot? node.box = (u.apply n).1.store.slot? node.box := by
  obtain ⟨u, hu⟩ := exists_turn h hok hn hnode
  have hfonts : t'.fonts = t.fonts := (base_flush h hok).fonts
  exact ⟨u, hu.fonts.symm.trans hfonts, hu.node?, hu.slot?, hu.inherited.symm, hu.written⟩

/-- Whether an application of a node that finds what the last one has found leaves a box with this
record as it is: the node has the text style that it inherits, its live entries do not write data
that differ, and the record has what they write last. -/
structure Steady (t : Tree) (n : NodeId) (node : Node) (style : BoxStyle) : Prop where
  text : node.table.Inherits t.fonts (t.inherited n) node.font
  concordant : Concordant (node.table.written (node.text.metrics t.fonts))
  holds : style.Holds (node.table.written (node.text.metrics t.fonts))

/-- A node is steady if neither of the two steps of its application would report a change. -/
theorem steady_iff :
    t.Steady n node style ↔
      (node.table.applyText t.fonts (t.inherited n)
          (node.font.getD (t.inherited n).font)).2 = false ∧
        (style.assignAll (node.table.written (node.text.metrics t.fonts))).2 = false := by
  rw [Table.applyText_snd_eq_false_iff, BoxStyle.assignAll_snd_eq_false_iff]
  exact ⟨fun h => ⟨h.text, h.concordant, h.holds⟩, fun ⟨htext, hbox⟩ => ⟨htext, hbox.1, hbox.2⟩⟩

instance (t : Tree) (n : NodeId) (node : Node) (style : BoxStyle) :
    Decidable (t.Steady n node style) :=
  decidable_of_iff _ steady_iff.symm

/-- The box of a node after its application, if the box had no mark. -/
theorem slot?_apply_iff (hnode : t.node? n = some node)
    (hslot : t.store.slot? node.box = some ⟨style, false⟩) :
    (t.apply n).1.store.slot? node.box = some ⟨style, false⟩ ↔
      t.foundMark n node style = false := by
  have hstyle : t.store.style? node.box = some style := by
    rw [BoxStore.style?, hslot]
    rfl
  rw [apply_eq hnode hstyle]
  show (t.store.write node.box _ _).slot? node.box = _ ↔ _
  rw [BoxStore.write, BoxStore.slot?_modifySlot, if_pos rfl, hslot, Option.map_some,
    Option.some.injEq, BoxSlot.mk.injEq, Bool.false_or]
  refine ⟨And.right, fun hmark => ⟨?_, hmark⟩⟩
  exact BoxStyle.assignAll_of_false (Bool.or_eq_false_iff.mp hmark).2

/-- An application that finds what the last one has found reports no change exactly if the node is
steady. -/
theorem foundMark_eq_false_iff {u : Tree} (hfonts : u.fonts = t.fonts)
    (hinherited : u.inherited n = t.inherited n)
    (htext : node.text = .resolved t.fonts (t.inherited n) node.font node.table)
    (hnode : node.table.Keyed) (hafter : after.table.Keyed)
    (hgone : ∀ entry ∈ after.table.rows, entry.isGone = false)
    (hlive : after.table.liveList = node.table.liveList) (hfont : after.font = node.font) :
    u.foundMark n after style = false ↔ t.Steady n node style := by
  have hvalues := Table.values?_of_liveList hnode hafter hlive
  -- the text style is the one that the node has, and the entries write what they have written
  have hfound : u.foundText n after = node.text := by
    rw [foundText_eq, htext, hfonts, hinherited, hfont]
    exact TextStyle.resolved_congr hvalues
  have hwritten : ∀ metrics, after.table.written metrics = node.table.written metrics := by
    intro metrics
    rw [Table.written, Table.written, hlive]
  rw [foundMark, Bool.or_eq_false_iff, steady_iff, Table.applyText_snd_eq_false_iff,
    Table.applyText_snd_eq_false_iff, Table.inherits_congr hvalues, Table.applyBox,
    Table.boxAssignments_eq_written hgone, hwritten, hfound, hfonts, hinherited, hfont]

/-! ## Scheduling without a change -/

/-- A command that schedules a node is no creation, no flush and no collection of marks. -/
theorem ne_of_schedules (h : s.Sound) (hnode : s.node? n = some node)
    (hrests : node.scheduled = false) (hafter : (s.after c).node? n = some after)
    (hwaits : after.scheduled = true) :
    c ≠ .create ∧ (∀ root, c ≠ .flush root) ∧ c ≠ .takeDirty := by
  have hsame : s.node? n ≠ some after := by
    intro hsame
    cases hnode.symm.trans hsame
    rw [hrests] at hwaits
    cases hwaits
  refine ⟨?_, ?_, ?_⟩
  · rintro rfl
    rcases node?_create_cases hafter with ⟨-, rfl⟩ | ⟨-, hbefore⟩
    · cases hwaits
    · exact hsame hbefore
  · rintro root rfl
    rcases s.after_flush_cases root with heq | ⟨applied, hok⟩
    · rw [heq] at hafter
      exact hsame hafter
    · obtain ⟨queue, hflush⟩ := flush_eq_applyEach hok
      have hscheduled := (isScheduled_of_node? hafter).trans hwaits
      rw [hflush, isScheduled_applyEach (h.with_queue queue)] at hscheduled
      have hbefore : s.isScheduled n = true := hscheduled.1
      rw [isScheduled_of_node? hnode, hrests] at hbefore
      cases hbefore
  · rintro rfl
    exact hsame hafter

/-- A command that schedules a node applies none, and leaves the box of the node alone. -/
theorem evolves_of_schedules (h : s.Sound) (hnode : s.node? n = some node)
    (hrests : node.scheduled = false) (hafter : (s.after c).node? n = some after)
    (hwaits : after.scheduled = true) :
    s.Evolves (s.Reports c) (s.after c) ∧
      (s.after c).store.slot? node.box = s.store.slot? node.box := by
  obtain ⟨hcreate, hflush, hcollect⟩ := ne_of_schedules h hnode hrests hafter hwaits
  have hevolves : s.Evolves (s.Reports c) (s.after c) := by
    rcases after_cases h c with rfl | ⟨root, applied, rfl, -⟩ | hevolves
    · exact absurd rfl hcreate
    · exact absurd rfl (hflush root)
    · exact hevolves
  refine ⟨hevolves, ?_⟩
  obtain ⟨before, hbefore, hkept⟩ := hevolves.node hafter
  cases hnode.symm.trans hbefore
  rcases s.slot?_after hcreate hflush hcollect node.box with hnone | hsame
  · -- the node still has its box
    obtain ⟨style, hstyle⟩ := hevolves.sound.housed hafter
    rw [hkept.box, BoxStore.style?, hnone] at hstyle
    cases hstyle
  · exact hsame

/-- **A node that is applied anew keeps its box as it is exactly if it is steady.** Let a node that
does not wait, and whose box has no mark, be scheduled by any command that leaves its live entries
and its font as they were, and let it inherit what it inherited before. Then after the next flush
its box has the record that it had and no mark, unless the flush reaches the node and the node is
not steady. -/
theorem Reachable.reapplied_iff (h : Reachable AnyCommand s) (hnode : s.node? n = some node)
    (hrests : node.scheduled = false) (hslot : s.store.slot? node.box = some ⟨style, false⟩)
    (hafter : (s.after c).node? n = some after) (hwaits : after.scheduled = true)
    (hlive : after.table.liveList = node.table.liveList) (hfont : after.font = node.font)
    (hok : (s.after c).flush root = .ok (t', applied))
    (hinherited : t'.inherited n = s.inherited n) :
    t'.store.slot? node.box = some ⟨style, false⟩ ↔
      (root ∈ (s.after c).shape.path n → s.Steady n node style) := by
  obtain ⟨hevolves, hslot'⟩ := evolves_of_schedules h.sound hnode hrests hafter hwaits
  rw [hslot] at hslot'
  obtain ⟨before, hbefore, hkept⟩ := hevolves.node hafter
  cases hnode.symm.trans hbefore
  have hsound := hevolves.sound
  by_cases hroot : root ∈ (s.after c).shape.path n
  · have hn : n ∈ applied :=
      (mem_applied_iff hsound (hevolves.queued h.queued) hok n).mpr
        ⟨hroot, .inl ((isScheduled_of_node? hafter).trans hwaits)⟩
    obtain ⟨u, hfonts, hunode, huslot, huinherited, hslots⟩ :=
      exists_application hsound hok hn hafter
    have hgone := Table.not_isGone_of_evolves (h.sound.tidy hnode).keyed
      (h.calm n node hnode hrests) hkept.table hlive
    have hmark : u.foundMark n after style = false ↔ s.Steady n node style :=
      foundMark_eq_false_iff (hfonts.trans hevolves.fonts) (huinherited.trans hinherited)
        (h.settled.text_eq hnode hrests) (h.sound.tidy hnode).keyed (hsound.tidy hafter).keyed
        hgone hlive hfont
    rw [hkept.box] at huslot hslots
    rw [hslots, ← hkept.box, slot?_apply_iff hunode (by rw [hkept.box, huslot, hslot']), hmark]
    exact ⟨fun hsteady _ => hsteady, fun hsteady => hsteady hroot⟩
  · have hsame := slot?_flush hsound hok hafter hroot
    rw [hkept.box, hslot'] at hsame
    exact ⟨fun _ hmem => absurd hmem hroot, fun _ => hsame⟩

/-- If copies report changes, a box has what the live entries write last in all fields but those of
`flex-flow`, unless that is not-a-number. -/
theorem Reachable.holds_iff (h : Reachable Reports t) (hnode : t.node? n = some node)
    (hrests : node.scheduled = false) (hstyle : t.store.style? node.box = some style)
    (hconcordant : Concordant (node.table.written (node.text.metrics t.fonts))) :
    style.Holds (node.table.written (node.text.metrics t.fonts)) ↔
      ∀ f d, f.isFlow = true →
        lastTo? f (node.table.written (node.text.metrics t.fonts)) = some d →
          (style.get f).beq d = true := by
  refine ⟨fun hholds f d _ => hholds f d, fun hflow f d hd => ?_⟩
  cases hf : f.isFlow with
  | true => exact hflow f d hf hd
  | false =>
    obtain ⟨d', hasked, hget⟩ := (h.cascaded n node style hnode hstyle f hf).2 hrests
    obtain rfl : d' = d := Table.eq_of_prescribes hasked hd
    rcases hget with hget | hget
    · obtain ⟨a, ha, hto⟩ := exists_of_lastTo? hd
      rw [hget]
      exact hconcordant a ha a ha f d' d' hto hto
    · exact hget

/-- A padding that is written again is steady. -/
theorem reapplied_iff_padding :
    let s := (withFont .default (.ofHost .default fun _ => .fixed 16) .builtIn).run
      [.create, .set ⟨0⟩ .inline "padding" [.text "1px 2px"], .flush ⟨0⟩, .takeDirty]
    let c : Command := .set ⟨0⟩ .inline "padding" [.text "1px 2px"]
    ∃ node style, s.node? ⟨0⟩ = some node ∧ s.store.slot? node.box = some ⟨style, false⟩ ∧
      ((s.after c).after (.flush ⟨0⟩)).store.slot? node.box = some ⟨style, false⟩ := by
  intro s c
  have hreach : Reachable AnyCommand s := (Reachable.start _ _ _).run _
  have hroot : (s.after c).contains ⟨0⟩ = true := by decide +kernel
  obtain ⟨t', applied, hok⟩ := exists_flush hroot
  obtain ⟨node, hnode, hrests, ⟨style, dirty⟩, hslot, hdirty, after, hafter, hwaits, hlive, hfont,
    hsteady, hinherited⟩ :
      ∃ node ∈ s.node? ⟨0⟩, node.scheduled = false ∧ ∃ slot ∈ s.store.slot? node.box,
        slot.dirty = false ∧ ∃ after ∈ (s.after c).node? ⟨0⟩, after.scheduled = true ∧
          after.table.liveList = node.table.liveList ∧ after.font = node.font ∧
          s.Steady ⟨0⟩ node slot.style ∧
          ((s.after c).after (.flush ⟨0⟩)).inherited ⟨0⟩ = s.inherited ⟨0⟩ := by
    decide +kernel
  obtain rfl : dirty = false := hdirty
  rw [after_flush_of_ok hok] at hinherited ⊢
  exact ⟨node, style, hnode, hslot, (hreach.reapplied_iff hnode hrests hslot hafter hwaits hlive
    hfont hok hinherited).mpr fun _ => hsteady⟩

/-- A left margin that overrides another one marks the box when it is written again: the margin
beneath it has been installed in between. -/
theorem not_every_reapplication_is_silent :
    ¬ ∀ (s t' : Tree) (c : Command) (n root : NodeId) (node after : Node) (style : BoxStyle)
        (applied : List NodeId),
      Reachable AnyCommand s → s.node? n = some node → node.scheduled = false →
      s.store.slot? node.box = some ⟨style, false⟩ →
      (s.after c).node? n = some after → after.scheduled = true →
      after.table.liveList = node.table.liveList → after.font = node.font →
      (s.after c).flush root = .ok (t', applied) → t'.inherited n = s.inherited n →
      t'.store.slot? node.box = some ⟨style, false⟩ := by
  intro hall
  let s := (withFont .default (.ofHost .default fun _ => .fixed 16) .builtIn).run
    [.create, .set ⟨0⟩ .inline "margin" [.text "1px"],
      .set ⟨0⟩ .inline "margin-left" [.text "2px"], .flush ⟨0⟩, .takeDirty]
  let c : Command := .set ⟨0⟩ .inline "margin-left" [.text "2px"]
  have hreach : Reachable AnyCommand s := (Reachable.start _ _ _).run _
  have hroot : (s.after c).contains ⟨0⟩ = true := by decide +kernel
  obtain ⟨t', applied, hok⟩ := exists_flush hroot
  obtain ⟨node, hnode, hrests, ⟨style, dirty⟩, hslot, hdirty, after, hafter, hwaits, hlive, hfont,
    hinherited, hmark⟩ :
      ∃ node ∈ s.node? ⟨0⟩, node.scheduled = false ∧ ∃ slot ∈ s.store.slot? node.box,
        slot.dirty = false ∧ ∃ after ∈ (s.after c).node? ⟨0⟩, after.scheduled = true ∧
          after.table.liveList = node.table.liveList ∧ after.font = node.font ∧
          ((s.after c).after (.flush ⟨0⟩)).inherited ⟨0⟩ = s.inherited ⟨0⟩ ∧
          ((s.after c).after (.flush ⟨0⟩)).store.isDirty node.box = true := by
    decide +kernel
  obtain rfl : dirty = false := hdirty
  rw [after_flush_of_ok hok] at hinherited hmark
  have hsame := hall s t' c ⟨0⟩ ⟨0⟩ node after style applied hreach hnode hrests hslot hafter hwaits
    hlive hfont hok hinherited
  rw [BoxStore.isDirty, hsame] at hmark
  cases hmark

end Tree

end FlexStyle
