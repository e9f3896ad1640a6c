import FlexStyle.Proofs.Table.Application
import FlexStyle.Proofs.Tree.Run

/-!
# Boxes follow the cascade

A flush does not compute a box record from scratch. It repairs the record that the last flush has
left behind: it writes what is live, and puts initial values back only for entries that have been
removed since. Nevertheless the outcome depends on the live entries alone, apart from the two fields
of `flex-flow`.

- `Table.lastWriter?`, `Table.Prescribes`: the datum that the live entries ask for.
- `Table.get_applyBox`: one application, on a record whose unused fields have their initial values.
- `Tree.Cascaded`: the invariant that ties boxes, tables and events together. A field that no entry
  had written when the events were last cleared has its initial value, and a field of a node that
  does not wait has the datum that is asked for.
- `Tree.Reachable.box_eq_prescribed`: incremental application is application from scratch.
-/

namespace FlexStyle

namespace Table

variable {t : Table Property} {f : Field} {metrics : RelativeMetrics} {initial style : BoxStyle}

/-! ## The entry that counts -/

/-- The last live entry, in the order of application, of a property that writes a field. -/
def lastWriter? (t : Table Property) (f : Field) : Option (Group × Property × List Value) :=
  t.liveList.reverse.find? fun (_, p, _) => p.writes f

/-- Whether a datum is the one that the live entries ask for in a field: what the last of them that
writes the field writes there, and the initial value if there is none. -/
def Prescribes (t : Table Property) (metrics : RelativeMetrics) (initial : BoxStyle) (f : Field)
    (d : Datum) : Prop :=
  match t.lastWriter? f with
  | some (_, p, values) => lastTo? f (p.assignments metrics values) = some d
  | none => d = initial.get f

theorem lastWriter?_eq_none_iff :
    t.lastWriter? f = none ↔
      ∀ g, ∀ entry ∈ t.entries g, entry.isRemoved = false → entry.key.writes f = false := by
  rw [lastWriter?, List.find?_eq_none]
  constructor
  · intro h g entry hmem hlive
    have := h (g, entry.key, entry.values)
      (List.mem_reverse.mpr (mem_liveList.mpr ⟨entry, hmem, hlive, rfl, rfl⟩))
    simpa using this
  · rintro h ⟨g, p, values⟩ hitem
    obtain ⟨entry, hmem, hlive, rfl, -⟩ := mem_liveList.mp (List.mem_reverse.mp hitem)
    simp [h g entry hmem hlive]

/-- The entry that counts, and what comes before and after it. -/
theorem exists_of_lastWriter? {g : Group} {p : Property} {values : List Value}
    (h : t.lastWriter? f = some (g, p, values)) :
    ∃ before entry after, t.rows = before ++ entry :: after ∧
      entry.isRemoved = false ∧ entry.key = p ∧ entry.values = values ∧ p.writes f = true ∧
      ∀ later ∈ after, later.isRemoved = false → later.key.writes f = false := by
  rw [lastWriter?, liveList_eq_list, ← List.map_reverse, ← List.filter_reverse, List.find?_map,
    List.find?_filter] at h
  obtain ⟨⟨g', entry⟩, hfind, heq⟩ := Option.map_eq_some_iff.mp h
  cases heq
  obtain ⟨hentry, after, before, hsplit, hafter⟩ := List.find?_eq_some_iff_append.mp hfind
  have hlist : t.list = before.reverse ++ (g, entry) :: after.reverse := by
    rw [← List.reverse_inj, hsplit]
    simp
  simp only [Bool.not_eq_true', decide_eq_true_eq] at hentry
  refine ⟨before.reverse.map (·.2), entry, after.reverse.map (·.2), ?_, hentry.1, rfl, rfl,
    hentry.2, ?_⟩
  · rw [rows, hlist, List.map_append, List.map_cons]
  · intro later hlater hlive
    obtain ⟨⟨g'', later⟩, hmem, rfl⟩ := List.mem_map.mp hlater
    have hnot := hafter _ (List.mem_reverse.mp hmem)
    simpa [hlive] using hnot

/-! ## One application -/

/-- A live entry of a property other than `flex-flow` writes all of its fields. -/
theorem writtenTo?_ne_none (metrics : RelativeMetrics) (h : t.Tidy) (hf : f.isFlow = false)
    {g : Group} {entry : Entry Property} (hmem : entry ∈ t.entries g)
    (hlive : entry.isRemoved = false) (hwrites : entry.key.writes f = true) :
    ∃ d, writtenTo? metrics f (entry.key, entry.values) = some d := by
  have hadmits := h.admits (find?_of_mem h.keyed hmem) hlive
  refine hadmits.covers ?_ hwrites metrics
  intro hflow
  rw [hflow, Property.flexFlow_writes, hf] at hwrites
  cases hwrites

/-- A walk over entries none of which writes a field while it is live is quiet. -/
theorem quiet_of_not_writes {passed : Passed} {rows : List (Entry Property)}
    (h : ∀ entry ∈ rows, entry.isRemoved = false → entry.key.writes f = false) :
    Quiet metrics f passed rows := by
  intro entry hmem hlive
  have hnot := h entry hmem hlive
  refine ⟨Property.lastTo?_assignments_of_not_writes hnot, fun q d hlast hkey => ?_⟩
  rw [← hkey, writes_of_lastPassed? hlast] at hnot
  cases hnot

/-- If nothing live writes a field and no removal puts its initial value back, then no entry that
writes the field was live before. -/
theorem wasLive_of_not_gone (h : t.Tidy) (hlive : t.lastWriter? f = none)
    (hgone : writerGone f t.rows = false) (g : Group) (p : Property)
    (hp : p.writes f = true) : t.wasLive g p = false := by
  rw [wasLive]
  cases hfind : t.find? g p with
  | none => rfl
  | some entry =>
    have hmem := mem_of_find? hfind
    have hkey := key_of_find? hfind
    have hrem : entry.isRemoved = true := by
      by_contra hn
      have hnot := lastWriter?_eq_none_iff.mp hlive g entry hmem (by simpa using hn)
      rw [hkey, hp] at hnot
      cases hnot
    rw [Option.any_some]
    by_contra hwas
    have hevent := Entry.event_eq_removed (h.fits hfind) (by simpa using hwas) hrem
    have hrow : entry ∈ t.rows :=
      List.mem_map.mpr ⟨(g, entry), mem_list.mpr hmem, rfl⟩
    have hnot := (List.any_eq_false.mp hgone) entry hrow
    simp [Entry.isGone, hrem, hevent, hkey, hp] at hnot

/-- One application gives every field the datum that the live entries ask for, if a field that no
entry had written has its initial value before. -/
theorem get_applyBox (metrics : RelativeMetrics) (h : t.Tidy) (hf : f.isFlow = false)
    (hold : (∀ g p, p.writes f = true → t.wasLive g p = false) →
      (style.get f).Same (initial.get f)) :
    ∃ d, t.Prescribes metrics initial f d ∧
      ((t.applyBox metrics initial style).1.get f).Same d := by
  unfold Prescribes
  cases hlast : t.lastWriter? f with
  | none =>
    refine ⟨initial.get f, rfl, ?_⟩
    have hquiet : Quiet metrics f [] t.rows := by
      refine quiet_of_not_writes fun entry hrow hlive => ?_
      obtain ⟨g, hmem⟩ := exists_mem_of_mem_rows hrow
      exact lastWriter?_eq_none_iff.mp hlast g entry hmem hlive
    have hto := lastTo?_assignmentsAfter_of_quiet initial hquiet
    cases hgone : writerGone f t.rows with
    | true =>
      rw [hgone, kinGone_of_writerGone hgone] at hto
      exact BoxStyle.get_assignAll_of_some hto
    | false =>
      have hto : lastTo? f (t.boxAssignments metrics initial) = none := by
        refine hto.trans ?_
        rw [hgone]
        exact ite_self none
      rw [applyBox, BoxStyle.get_assignAll_of_none hto]
      exact hold (wasLive_of_not_gone h hlast hgone)
  | some found =>
    obtain ⟨g, p, values⟩ := found
    obtain ⟨before, entry, after, hrows, hlive, rfl, rfl, hwrites, hafter⟩ :=
      exists_of_lastWriter? hlast
    have hrow : entry ∈ t.rows := by
      rw [hrows]
      exact List.mem_append_right _ List.mem_cons_self
    obtain ⟨g', hmem⟩ := exists_mem_of_mem_rows hrow
    obtain ⟨d, hd⟩ := writtenTo?_ne_none metrics h hf hmem hlive hwrites
    refine ⟨d, hd, BoxStyle.get_assignAll_of_some ?_⟩
    rw [boxAssignments_eq, hrows]
    exact lastTo?_of_quiet_after hlive hd (quiet_of_not_writes hafter)

/-! ## Tables without events -/

theorem prescribes_congr {s : Table Property} (h : t.liveList = s.liveList) {d : Datum} :
    t.Prescribes metrics initial f d ↔ s.Prescribes metrics initial f d := by
  rw [Prescribes, Prescribes, lastWriter?, lastWriter?, h]

/-- If no entry that writes a field is live, the initial value is asked for. -/
theorem eq_initial_of_prescribes (h : t.Tidy)
    (hwas : ∀ g p, p.writes f = true → t.clearEvents.wasLive g p = false) {d : Datum}
    (hd : t.Prescribes metrics initial f d) : d = initial.get f := by
  have hnone : t.lastWriter? f = none := by
    rw [lastWriter?_eq_none_iff]
    intro g entry hmem hlive
    by_contra hwrites
    have hnot := hwas g entry.key (by simpa using hwrites)
    rw [wasLive_clearEvents, find?_of_mem h.keyed hmem] at hnot
    simp [hlive] at hnot
  rwa [Prescribes, hnone] at hd

end Table

namespace Tree

variable {s t : Tree} {n : NodeId} {node : Node}

/-- Whether a box record goes with the table of its node: a field that no entry had written when
the events were last cleared has its initial value, and if the node does not wait, every field has
the datum that the live entries ask for. -/
def Follows (t : Tree) (node : Node) (style : BoxStyle) : Prop :=
  ∀ f : Field, f.isFlow = false →
    ((∀ g p, p.writes f = true → node.table.wasLive g p = false) →
      (style.get f).Same (t.store.initial.get f)) ∧
    (node.scheduled = false → ∃ d,
      node.table.Prescribes (node.text.metrics t.fonts) t.store.initial f d ∧
        (style.get f).Same d)

/-- Whether all box records go with the tables of their nodes. -/
def Cascaded (t : Tree) : Prop :=
  ∀ n node style, t.node? n = some node → t.store.style? node.box = some style →
    t.Follows node style

theorem cascaded_apply (h : t.Sound) (hc : t.Cascaded) : (t.apply n).1.Cascaded := by
  rcases apply_cases h n with ⟨-, hsame⟩ | ⟨node, style, hnode, hstyle, ha, -⟩
  · rw [hsame]
    exact hc
  · intro m after style' hafter hstyle' f hf
    rw [ha.base.initial, ha.base.fonts]
    rw [ha.style?] at hstyle'
    rcases ha.node_cases hafter with ⟨-, rfl⟩ | ⟨hmn, hbefore⟩
    · -- the node that is applied
      rw [if_pos (by rfl)] at hstyle'
      cases hstyle'
      obtain ⟨d, hd, hget⟩ := Table.get_applyBox ((t.foundText n node).metrics t.fonts)
        (h.tidy hnode) hf (hc n node style hnode hstyle f hf).1
      constructor
      · intro hwas
        rw [← Table.eq_initial_of_prescribes (h.tidy hnode) hwas hd]
        exact hget
      · intro _
        exact ⟨d, (Table.prescribes_congr node.table.liveList_clearEvents).mpr hd, hget⟩
    · -- a node with another box
      have hbox : after.box ≠ node.box := fun heq => hmn (h.apart hbefore hnode heq)
      rw [if_neg hbox] at hstyle'
      exact hc m after style' hbefore hstyle' f hf

theorem cascaded_evolves (he : s.Evolves True t) (hs : s.Sound) (hc : s.Cascaded) :
    t.Cascaded := by
  intro n after style hafter hstyle f hf
  obtain ⟨before, hbefore, hkept⟩ := he.node hafter
  rw [hkept.box, hkept.style?] at hstyle
  obtain ⟨hunused, hasked⟩ := hc n before style hbefore hstyle f hf
  rw [he.initial hs]
  constructor
  · intro hwas
    refine hunused fun g p hp => ?_
    rw [← hkept.table.wasLive]
    exact hwas g p hp
  · intro hrests
    obtain ⟨d, hd, hget⟩ := hasked (hkept.rests hrests)
    refine ⟨d, ?_, hget⟩
    rw [he.fonts, hkept.text]
    exact (Table.prescribes_congr (hkept.order trivial hrests)).mpr hd

theorem cascaded_create (h : t.Sound) (hc : t.Cascaded) : t.create.2.Cascaded := by
  intro n node style hnode hstyle
  have hinitial : t.create.2.store.initial = t.store.initial := BoxStore.initial_create _
  rcases node?_create_cases hnode with ⟨-, rfl⟩ | ⟨-, hbefore⟩
  · rw [style?_create_self h] at hstyle
    cases hstyle
    intro f _
    rw [hinitial]
    exact ⟨fun _ => .refl _, fun _ => ⟨_, rfl, .refl _⟩⟩
  · rw [style?_create_of_node? h hbefore] at hstyle
    have hfollows := hc n node style hbefore hstyle
    unfold Follows at hfollows ⊢
    rw [hinitial]
    exact hfollows

theorem Reachable.cascaded (h : Reachable Reports t) : t.Cascaded := by
  refine h.induction (P := Cascaded) ?_ ?_ ?_ ?_
  · intro config fonts font n node style hnode
    simp [withFont, node?] at hnode
  · exact fun t hsound hc => cascaded_create hsound hc
  · intro t t' root applied hsound hok hc
    exact flush_induction (P := Cascaded) (fun _ _ hc => hc) (fun _ _ hs hc => cascaded_apply hs hc)
      hsound hc hok
  · intro t c hsound hreports he hc
    have hordered : t.Evolves True (t.after c) := by
      rwa [show t.Reports c = True from eq_true hreports] at he
    exact cascaded_evolves hordered hsound hc

/-- **Incremental application is application from scratch.** If copies report changes, then the box
of every node that does not wait holds, in every field other than those of `flex-flow`, what the
last live entry that writes the field writes there, measured with the text style of the node; or
the initial value, if there is no such entry. -/
theorem Reachable.box_eq_prescribed (h : Reachable Reports t) (hnode : t.node? n = some node)
    (hrests : node.scheduled = false) :
    ∃ style, t.boxStyle? n = some style ∧ ∀ f : Field, f.isFlow = false → ∃ d,
      node.table.Prescribes (node.text.metrics t.fonts) (.initial t.config.webDefaults) f d ∧
        (style.get f).Same d := by
  obtain ⟨style, hstyle⟩ := h.sound.housed hnode
  refine ⟨style, ?_, fun f hf => ?_⟩
  · rw [boxStyle?, hnode]
    exact hstyle
  · rw [← h.sound.initial]
    exact (h.cascaded n node style hnode hstyle f hf).2 hrests

/-- A left margin that is removed again leaves the margin beneath it. -/
theorem box_eq_prescribed_margin :
    let t := ((((((withFont .default (.ofHost .default fun _ => .fixed 16) .builtIn).after
      .create).after (.set ⟨0⟩ .inline "margin" [.value (.pixels 1)])).after
      (.set ⟨0⟩ .inline "margin-left" [.value (.pixels 2)])).after (.flush ⟨0⟩)).after
      (.remove ⟨0⟩ .inline "margin-left")).after (.flush ⟨0⟩)
    ∃ style, t.boxStyle? ⟨0⟩ = some style ∧
      (style.get (.dimension (.edge .margin .left))).Same (.dimension (.points 1)) := by
  intro t
  have hreach : Reachable Reports t :=
    ((((((Reachable.start _ _ _).step trivial).step trivial).step trivial).step trivial).step
      trivial).step trivial
  have hnode : ∃ node ∈ t.node? ⟨0⟩, node.scheduled = false ∧
      node.table.lastWriter? (.dimension (.edge .margin .left)) =
        some (.inline, .edges .margin, [.pixels 1]) := by
    decide +kernel
  obtain ⟨node, hnode, hrests, hlast⟩ := hnode
  obtain ⟨style, hstyle, hfields⟩ := hreach.box_eq_prescribed hnode hrests
  obtain ⟨d, hd, hget⟩ := hfields (.dimension (.edge .margin .left)) rfl
  rw [Table.Prescribes, hlast] at hd
  cases hd
  exact ⟨style, hstyle, hget⟩

end Tree

end FlexStyle
