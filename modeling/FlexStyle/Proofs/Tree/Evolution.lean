import FlexStyle.Proofs.Store
import FlexStyle.Proofs.Table.Order
import FlexStyle.Proofs.Tree
import FlexStyle.Tree.Write

/-!
# How trees evolve

The shape of a tree, its nodes, its boxes and its queue belong together, and all operations keep
them so. Between two flushes no text style and no box record is written; and a node that does not
wait afterwards has kept its font, its entries and its parent. That is all that later results need
to know of any operation apart from creation and flushes.

- `Tree.Sound`: how the parts of a tree fit together.
- `Tree.Evolves`: a sound tree that comes from another one without a node being applied.
- `Tree.evolves_set`, `Tree.evolves_remove`, `Tree.evolves_clear`, `Tree.evolves_copyStyles`,
  `Tree.evolves_setFont`, `Tree.evolves_setInlineText`: writes are of that kind.
-/

namespace FlexStyle.Tree

/-- How the parts of a tree fit together. -/
structure Sound (t : Tree) : Prop where
  /-- No node is at two places. -/
  nodup : t.shape.toList.Nodup
  /-- The shape holds exactly the nodes that have not been removed. -/
  mem_shape : ∀ n, n ∈ t.shape.toList ↔ t.contains n = true
  exact : t.store.Exact
  initial : t.store.initial = .initial t.config.webDefaults
  /-- Every node has a box. -/
  housed : ∀ {n node}, t.node? n = some node → ∃ style, t.store.style? node.box = some style
  /-- No two nodes share a box. -/
  apart : ∀ {n m node other}, t.node? n = some node → t.node? m = some other →
    node.box = other.box → n = m
  tidy : ∀ {n node}, t.node? n = some node → node.table.Tidy

/-- Whether all nodes that wait are in the queue. -/
def Queued (t : Tree) : Prop := ∀ n, t.isScheduled n = true → n ∈ t.queue

/-- What an operation leaves of a node. If the node does not wait afterwards, that is nearly all;
`ordered` tells whether it includes the order of the live entries. -/
structure Kept (ordered : Prop) (s t : Tree) (n : NodeId) (before after : Node) : Prop where
  box : after.box = before.box
  text : after.text = before.text
  style? : t.store.style? before.box = s.store.style? before.box
  table : before.table.Evolves after.table
  waits : before.scheduled = true → after.scheduled = true
  font : after.scheduled = false → after.font = before.font
  find? : after.scheduled = false → ∀ g p, after.table.find? g p = before.table.find? g p
  parent? : after.scheduled = false → t.parent? n = s.parent? n
  order : ordered → after.scheduled = false → after.table.liveList = before.table.liveList

/-- A sound tree that comes from another one, with no new nodes and no node applied. -/
structure Evolves (ordered : Prop) (s t : Tree) : Prop where
  sound : t.Sound
  queued : s.Queued → t.Queued
  config : t.config = s.config
  fonts : t.fonts = s.fonts
  rootText : t.rootText = s.rootText
  node : ∀ {n after}, t.node? n = some after →
    ∃ before, s.node? n = some before ∧ s.Kept ordered t n before after

variable {ordered : Prop} {r s t : Tree} {n : NodeId}

theorem Kept.refl {node : Node} (h : node.table.Tidy) : t.Kept ordered t n node node :=
  ⟨rfl, rfl, rfl, .refl h, id, fun _ => rfl, fun _ _ _ => rfl, fun _ => rfl, fun _ _ => rfl⟩

/-- A node that does not wait afterwards did not wait before. -/
theorem Kept.rests {before after : Node} (h : s.Kept ordered t n before after)
    (hrests : after.scheduled = false) : before.scheduled = false := by
  by_contra hwaits
  rw [h.waits (by simpa using hwaits)] at hrests
  cases hrests

theorem Evolves.refl (h : t.Sound) : t.Evolves ordered t where
  sound := h
  queued := id
  config := rfl
  fonts := rfl
  rootText := rfl
  node hnode := ⟨_, hnode, .refl (h.tidy hnode)⟩

/-- An operation after an operation is one. -/
theorem Evolves.trans (h₁ : r.Evolves ordered s) (h₂ : s.Evolves ordered t) :
    r.Evolves ordered t where
  sound := h₂.sound
  queued h := h₂.queued (h₁.queued h)
  config := h₂.config.trans h₁.config
  fonts := h₂.fonts.trans h₁.fonts
  rootText := h₂.rootText.trans h₁.rootText
  node {n last} hlast := by
    obtain ⟨middle, hmiddle, k₂⟩ := h₂.node hlast
    obtain ⟨first, hfirst, k₁⟩ := h₁.node hmiddle
    refine ⟨first, hfirst, ?_⟩
    exact {
      box := k₂.box.trans k₁.box
      text := k₂.text.trans k₁.text
      style? := by rw [← k₁.style?, ← k₁.box, k₂.style?]
      table := k₁.table.trans k₂.table
      waits := fun h => k₂.waits (k₁.waits h)
      font := fun h => (k₂.font h).trans (k₁.font (k₂.rests h))
      find? := fun h g p => (k₂.find? h g p).trans (k₁.find? (k₂.rests h) g p)
      parent? := fun h => (k₂.parent? h).trans (k₁.parent? (k₂.rests h))
      order := fun ho h => (k₂.order ho h).trans (k₁.order ho (k₂.rests h)) }

/-- Nodes that are kept keep the tree sound, if the shape, the store and the queue are right. -/
theorem Evolves.of_kept (h : s.Sound) (hconfig : t.config = s.config) (hfonts : t.fonts = s.fonts)
    (hroot : t.rootText = s.rootText) (hinitial : t.store.initial = s.store.initial)
    (hnode : ∀ n after, t.node? n = some after →
      ∃ before, s.node? n = some before ∧ s.Kept ordered t n before after)
    (hnodup : t.shape.toList.Nodup) (hshape : ∀ n, n ∈ t.shape.toList ↔ t.contains n = true)
    (hexact : t.store.Exact) (hqueued : s.Queued → t.Queued) : s.Evolves ordered t where
  queued := hqueued
  config := hconfig
  fonts := hfonts
  rootText := hroot
  node hafter := hnode _ _ hafter
  sound := {
    nodup := hnodup
    mem_shape := hshape
    exact := hexact
    initial := by rw [hinitial, h.initial, hconfig]
    housed := by
      intro n after hafter
      obtain ⟨before, hbefore, hkept⟩ := hnode n after hafter
      rw [hkept.box, hkept.style?]
      exact h.housed hbefore
    apart := by
      intro n m after after' hafter hafter' hbox
      obtain ⟨before, hbefore, hkept⟩ := hnode n after hafter
      obtain ⟨before', hbefore', hkept'⟩ := hnode m after' hafter'
      exact h.apart hbefore hbefore' (by rw [← hkept.box, ← hkept'.box, hbox])
    tidy := by
      intro n after hafter
      obtain ⟨before, -, hkept⟩ := hnode n after hafter
      exact hkept.table.tidy }

theorem Evolves.initial (h : s.Evolves ordered t) (hs : s.Sound) :
    t.store.initial = s.store.initial := by
  rw [h.sound.initial, hs.initial, h.config]

/-! ## Writes to one node -/

/-- A node that is not touched is kept. -/
theorem Kept.of_same (hsame : s.SameApartFromNodes t) {node : Node} (h : node.table.Tidy) :
    s.Kept ordered t n node node where
  box := rfl
  text := rfl
  style? := by rw [hsame.store]
  table := .refl h
  waits := id
  font _ := rfl
  find? _ _ _ := rfl
  parent? _ := by rw [Tree.parent?, hsame.shape, Tree.parent?]
  order _ _ := rfl

/-- A change of one node that keeps the node. -/
theorem Evolves.of_one (h : s.Sound) (hsame : s.SameApartFromNodes t)
    (hothers : ∀ m, m ≠ n → t.node? m = s.node? m)
    (hcontains : ∀ m, t.contains m = s.contains m)
    (hnode : ∀ before after, s.node? n = some before → t.node? n = some after →
      s.Kept ordered t n before after)
    (hqueued : s.Queued → t.Queued) : s.Evolves ordered t := by
  refine .of_kept h hsame.config hsame.fonts hsame.rootText (by rw [hsame.store]) ?_ ?_ ?_ ?_
    hqueued
  · intro m after hafter
    by_cases hmn : m = n
    · subst hmn
      have hlive : s.contains m = true := by
        rw [← hcontains m, contains_iff]
        exact ⟨after, hafter⟩
      obtain ⟨before, hbefore⟩ := contains_iff.mp hlive
      exact ⟨before, hbefore, hnode before after hbefore hafter⟩
    · rw [hothers m hmn] at hafter
      exact ⟨after, hafter, .of_same hsame (h.tidy hafter)⟩
  · rw [hsame.shape]
    exact h.nodup
  · intro m
    rw [hsame.shape, hcontains]
    exact h.mem_shape m
  · rw [hsame.store]
    exact h.exact

theorem queued_schedule (h : t.Queued) : (t.schedule n).Queued := by
  intro m hm
  unfold schedule at hm ⊢
  split at hm
  case isFalse hc =>
    rw [if_neg hc]
    exact h m hm
  case isTrue hc =>
    rw [if_pos hc]
    show m ∈ t.queue ++ [n]
    by_cases hmn : m = n
    · subst hmn
      exact List.mem_append_right _ (List.mem_singleton_self m)
    · refine List.mem_append_left _ (h m ?_)
      have hsame : (t.modify n fun node => { node with scheduled := true }).node? m =
          t.node? m := by
        rw [node?_modify, if_neg hmn]
      rw [isScheduled, ← hsame]
      exact hm

/-- The queue is right as long as flags do not change. -/
theorem queued_modify (h : t.Queued) {change : Node → Node}
    (hchange : ∀ node, t.node? n = some node → (change node).scheduled = node.scheduled) :
    (t.modify n change).Queued := by
  intro m hm
  refine h m ?_
  obtain ⟨after, hafter, hwaits⟩ := exists_of_isScheduled hm
  rw [node?_modify] at hafter
  split at hafter
  case isFalse => rwa [isScheduled_of_node? hafter]
  case isTrue hmn =>
    subst hmn
    obtain ⟨before, hbefore, rfl⟩ := Option.map_eq_some_iff.mp hafter
    rwa [isScheduled_of_node? hbefore, ← hchange before hbefore]

/-- A change of one node that is scheduled with it. -/
theorem evolves_modify_schedule (h : t.Sound) {change : Node → Node}
    (hchange : ∀ node, t.node? n = some node → (change node).box = node.box ∧
      (change node).text = node.text ∧ (change node).scheduled = node.scheduled ∧
      node.table.Evolves (change node).table) :
    t.Evolves ordered ((t.modify n change).schedule n) := by
  have hmodified : ∀ m, m ≠ n → (t.modify n change).node? m = t.node? m := by
    intro m hmn
    rw [node?_modify, if_neg hmn]
  refine .of_one (n := n) h ?_ ?_ ?_ ?_ ?_
  · exact (t.modify_same n change).trans (schedule_same _ n)
  · intro m hmn
    rw [node?_schedule, if_neg hmn, hmodified m hmn]
  · intro m
    rw [contains_schedule, contains_modify]
  · intro before after hbefore hafter
    rw [node?_schedule, if_pos rfl, node?_modify, if_pos rfl, hbefore] at hafter
    cases hafter
    obtain ⟨hbox, htext, -, htable⟩ := hchange before hbefore
    -- the node waits, and so there is nothing else to keep
    refine ⟨hbox, htext, ?_, htable, fun _ => rfl, nofun, nofun, nofun, nofun⟩
    rw [(schedule_same _ n).store]
    rfl
  · intro hqueued
    refine queued_schedule (queued_modify hqueued fun before hbefore => ?_)
    exact (hchange before hbefore).2.2.1

/-- A change of a table that is scheduled if it reports a change of values. -/
theorem evolves_changeTable (h : t.Sound) {change : Table Property → Table Property × Bool}
    (hevolves : ∀ node, t.node? n = some node → node.table.Evolves (change node.table).1)
    (hsame : ∀ node, t.node? n = some node → (change node.table).2 = false →
      ∀ g p, (change node.table).1.find? g p = node.table.find? g p)
    (horder : ordered → ∀ node, t.node? n = some node → (change node.table).2 = false →
      (change node.table).1.liveList = node.table.liveList) :
    t.Evolves ordered (t.changeTable n change).1 := by
  unfold changeTable
  cases hnode : t.node? n with
  | none => exact .refl h
  | some node =>
    show t.Evolves ordered (if (change node.table).2 then _ else _)
    split
    case isTrue =>
      refine evolves_modify_schedule h fun before hbefore => ?_
      cases hnode.symm.trans hbefore
      exact ⟨rfl, rfl, rfl, hevolves node hnode⟩
    case isFalse hfalse =>
      have hfalse : (change node.table).2 = false := by simpa using hfalse
      refine .of_one (n := n) h (t.modify_same n _) ?_ (fun m => t.contains_modify n m _) ?_ ?_
      · intro m hmn
        rw [node?_modify, if_neg hmn]
      · intro before after hbefore hafter
        cases hnode.symm.trans hbefore
        rw [node?_modify, if_pos rfl, hnode] at hafter
        cases hafter
        exact ⟨rfl, rfl, rfl, hevolves node hnode, id, fun _ => rfl,
          fun _ => hsame node hnode hfalse, fun _ => rfl, fun ho _ => horder ho node hnode hfalse⟩
      · exact fun hqueued => queued_modify hqueued fun _ _ => rfl

theorem evolves_remove (h : t.Sound) (g : Group) (name : String) :
    t.Evolves ordered (t.remove n g name).1 := by
  unfold remove
  split
  · exact .refl h
  · refine evolves_changeTable h ?_ ?_ ?_
    · intro node hnode
      exact Table.evolves_remove (h.tidy hnode) g _
    · intro node hnode hfalse g' p'
      rw [Table.remove_of_false (h.tidy hnode).keyed hfalse]
    · intro _ node hnode hfalse
      rw [Table.remove_of_false (h.tidy hnode).keyed hfalse]

/-- A property that is set schedules its node. -/
theorem evolves_set (h : t.Sound) (g : Group) (name : String) (values : List Raw) :
    t.Evolves ordered (t.set n g name values).1 := by
  unfold set
  split
  · exact .refl h
  · split
    · exact evolves_remove h g name
    · split
      case h_1 p _ _ _ values haccept _ =>
        refine evolves_modify_schedule h fun node hnode => ⟨rfl, rfl, rfl, ?_⟩
        exact Table.evolves_set (h.tidy hnode) g ⟨_, haccept⟩
      case h_2 => exact .refl h

theorem evolves_clear (h : t.Sound) (choice : Option Group) :
    t.Evolves ordered (t.clear n choice).1 := by
  refine evolves_changeTable h ?_ ?_ ?_
  · intro node hnode
    exact Table.evolves_clear (h.tidy hnode) choice
  · intro node hnode hfalse g p
    show (node.table.clear choice).1.find? g p = _
    rw [Table.clear_of_false hfalse]
  · intro _ node hnode hfalse
    show (node.table.clear choice).1.liveList = _
    rw [Table.clear_of_false hfalse]

/-- A copy keeps the order of what is live if it reports a change, for then the node waits. -/
theorem evolves_copyStyles (h : t.Sound) (target source : NodeId) (choice : Option Group) :
    t.Evolves ((t.copyStyles target source choice).2 = true)
      (t.copyStyles target source choice).1 := by
  unfold copyStyles
  cases hsource : t.node? source with
  | none => exact .refl h
  | some node =>
    refine evolves_changeTable h ?_ ?_ ?_
    · intro node' hnode'
      exact Table.evolves_copyFrom (h.tidy hnode') (h.tidy hsource) choice
    · intro node' hnode' hfalse
      exact Table.find?_copyFrom_of_false (h.tidy hnode').keyed (h.tidy hsource).keyed hfalse
    · intro htrue node' hnode' hfalse
      have hreport : (t.changeTable target (·.copyFrom node.table choice)).2 =
          (node'.table.copyFrom node.table choice).2 := by
        rw [changeTable, hnode']
      rw [show _ = true from htrue, hfalse] at hreport
      cases hreport

/-- A font that is set schedules its node, unless it is the one that is there. -/
theorem evolves_setFont (h : t.Sound) (font : Option FontId) :
    t.Evolves ordered (t.setFont n font).1 := by
  unfold setFont
  split
  · exact .refl h
  · split
    · exact .refl h
    · refine evolves_modify_schedule h fun node hnode => ?_
      exact ⟨rfl, rfl, rfl, .refl (h.tidy hnode)⟩

theorem evolves_declare (h : t.Sound) (declarations : List Declaration) :
    t.Evolves ordered (t.declare n declarations).1 := by
  induction declarations generalizing t with
  | nil => exact .refl h
  | cons d rest ih =>
    have hfirst : t.Evolves ordered (t.setText n .inline d.property d.value).1 :=
      evolves_set h _ _ _
    exact hfirst.trans (ih hfirst.sound)

/-- An inline text schedules its node with everything that it changes. -/
theorem evolves_setInlineText (h : t.Sound) (text : String) :
    t.Evolves ordered (t.setInlineText n text).1 := by
  unfold setInlineText
  split
  · have hclear : t.Evolves ordered (t.clear n (some .inline)).1 := evolves_clear h _
    exact hclear.trans (evolves_declare hclear.sound _)
  · exact .refl h

end FlexStyle.Tree
