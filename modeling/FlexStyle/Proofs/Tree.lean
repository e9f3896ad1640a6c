import FlexStyle.Tree.Structure
import Mathlib.Tactic.ByContra

/-!
# The nodes of a tree

What the elementary changes of a tree do to its nodes. A change of one node leaves all others as
they are, and touches neither the shape nor the boxes; scheduling is such a change, and also puts
the node into the queue.

- `Tree.node?_modify`, `Tree.node?_schedule`, `Tree.node?_create`: the nodes after a change.
- `Tree.SameApartFromNodes`: what changes of single nodes leave as it is.
- `Tree.box?`: the box of a node.
-/

namespace FlexStyle.Tree

variable {t : Tree} {n m : NodeId} {node : Node}

theorem contains_iff : t.contains n = true ↔ ∃ node, t.node? n = some node :=
  Option.isSome_iff_exists

/-- A node has a number that has been given out. -/
theorem lt_size_of_node? (h : t.node? n = some node) : n.number < t.nodes.size := by
  by_contra hn
  rw [node?, Array.getElem?_eq_none (Nat.not_lt.mp hn)] at h
  cases h

/-! ## Changes of one node -/

/-- A change of one node leaves the others as they are. -/
theorem node?_modify (t : Tree) (n m : NodeId) (change : Node → Node) :
    (t.modify n change).node? m = if m = n then (t.node? m).map change else t.node? m := by
  obtain ⟨i⟩ := n
  obtain ⟨j⟩ := m
  simp only [node?, modify, Array.getElem?_modify, NodeId.mk.injEq]
  by_cases h : i = j
  · subst h
    cases t.nodes[i]? <;> simp
  · simp [h, Ne.symm h]

/-- A change of one node removes none. -/
theorem contains_modify (t : Tree) (n m : NodeId) (change : Node → Node) :
    (t.modify n change).contains m = t.contains m := by
  rw [contains, node?_modify, contains]
  split
  · exact Option.isSome_map
  · rfl

/-- Changes of one node touch nothing else in the tree. -/
structure SameApartFromNodes (s t : Tree) : Prop where
  config : t.config = s.config
  fonts : t.fonts = s.fonts
  rootText : t.rootText = s.rootText
  shape : t.shape = s.shape
  store : t.store = s.store

theorem SameApartFromNodes.trans {r s t : Tree} (h₁ : r.SameApartFromNodes s)
    (h₂ : s.SameApartFromNodes t) : r.SameApartFromNodes t :=
  ⟨h₂.config.trans h₁.config, h₂.fonts.trans h₁.fonts, h₂.rootText.trans h₁.rootText,
    h₂.shape.trans h₁.shape, h₂.store.trans h₁.store⟩

theorem modify_same (t : Tree) (n : NodeId) (change : Node → Node) :
    t.SameApartFromNodes (t.modify n change) := ⟨rfl, rfl, rfl, rfl, rfl⟩

/-! ## Scheduling -/

/-- Whether a node waits is written in its flag. -/
theorem isScheduled_of_node? (h : t.node? n = some node) :
    t.isScheduled n = node.scheduled := by
  rw [isScheduled, h]
  rfl

/-- What waits has not been removed. -/
theorem exists_of_isScheduled (h : t.isScheduled n = true) :
    ∃ node, t.node? n = some node ∧ node.scheduled = true := (Option.any_eq_true _ _).mp h

/-- Scheduling sets the flag of one node, and changes nothing else about nodes. -/
theorem node?_schedule (t : Tree) (n m : NodeId) :
    (t.schedule n).node? m =
      if m = n then (t.node? m).map fun node => { node with scheduled := true }
      else t.node? m := by
  unfold schedule
  split
  case isTrue => exact t.node?_modify n m _
  case isFalse h =>
    split
    case isFalse => rfl
    case isTrue hm =>
      subst hm
      rw [contains, isScheduled] at h
      cases hnode : t.node? m with
      | none => rfl
      | some node =>
        -- the node waits already, so that its flag is set
        have hwaits : node.scheduled = true := by simpa [hnode] using h
        rw [Option.map_some, ← hwaits]

/-- Scheduling touches nodes and the queue only. -/
theorem schedule_same (t : Tree) (n : NodeId) : t.SameApartFromNodes (t.schedule n) := by
  unfold schedule
  split
  · exact ⟨rfl, rfl, rfl, rfl, rfl⟩
  · exact ⟨rfl, rfl, rfl, rfl, rfl⟩

/-- Scheduling removes no node. -/
theorem contains_schedule (t : Tree) (n m : NodeId) :
    (t.schedule n).contains m = t.contains m := by
  rw [contains, node?_schedule, contains]
  split
  · exact Option.isSome_map
  · rfl

/-! ## Adding and removing nodes -/

/-- The new node is without style, and the others are as they were. -/
theorem node?_create (t : Tree) (m : NodeId) :
    t.create.2.node? m =
      if m = t.create.1 then some ⟨{}, t.rootText, t.store.create.1, none, false⟩
      else t.node? m := by
  obtain ⟨j⟩ := m
  simp only [create, node?, Array.getElem?_push, NodeId.mk.injEq]
  split <;> rfl

theorem contains_create (t : Tree) (m : NodeId) :
    t.create.2.contains m = if m = t.create.1 then true else t.contains m := by
  rw [contains, node?_create, contains]
  split <;> rfl

/-- The number of a new node has not been given out before. -/
theorem node?_create_fst (t : Tree) : t.node? t.create.1 = none := by
  simp [create, node?]

/-- A node that is given up is not there any more, and the others are as they were. -/
theorem node?_discard (t : Tree) (n m : NodeId) :
    (t.discard n).node? m = if m = n then none else t.node? m := by
  unfold discard
  cases hnode : t.node? n with
  | none =>
    by_cases h : m = n
    · rw [if_pos h, h, hnode]
    · rw [if_neg h]
  | some node =>
    obtain ⟨i⟩ := n
    obtain ⟨j⟩ := m
    have hi : i < t.nodes.size := lt_size_of_node? hnode
    simp only [node?, Array.getElem?_setIfInBounds, NodeId.mk.injEq]
    by_cases h : i = j
    · subst h
      simp [hi]
    · simp [h, Ne.symm h]

/-! ## The boxes of nodes -/

/-- The box of a node. -/
def box? (t : Tree) (n : NodeId) : Option BoxId := (t.node? n).map (·.box)

/-- What it means to have a box. -/
theorem box?_eq_some_iff {id : BoxId} :
    t.box? n = some id ↔ ∃ node, t.node? n = some node ∧ node.box = id := Option.map_eq_some_iff

/-- The nodes that are there are those that have boxes. -/
theorem contains_eq_isSome_box? (t : Tree) (n : NodeId) : t.contains n = (t.box? n).isSome :=
  Option.isSome_map.symm

/-- A new node has the new box, and the others keep theirs. -/
theorem box?_create (t : Tree) (m : NodeId) :
    t.create.2.box? m = if m = t.create.1 then some t.store.create.1 else t.box? m := by
  rw [box?, node?_create, box?]
  split <;> rfl

/-- A node that is given up has no box, and the others keep theirs. -/
theorem box?_discard (t : Tree) (n m : NodeId) :
    (t.discard n).box? m = if m = n then none else t.box? m := by
  rw [box?, node?_discard, box?]
  split <;> rfl

end FlexStyle.Tree
