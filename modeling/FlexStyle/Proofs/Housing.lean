import FlexStyle.Proofs.Tree.Edits

/-!
# A box for every node

Boxes are numbered by slots that are used again, and nothing in a slot tells whose box it holds.
Still, whatever is created, moved, applied and removed, each node has a box of its own, and no box
is left that belongs to none.

- `Tree.Owned`: every box belongs to a node. `Tree.owned_create`, `Tree.owned_apply`,
  `Tree.owned_removeSubtree` and `Tree.owned_after` say that this is kept.
- `Tree.OneToOne`: how nodes and boxes go together.
- `Tree.Removes`, `Tree.Adds`: what removal takes away, and what creation adds.
- `Tree.Reachable.nodes_and_boxes`: all of these, in every tree that can be reached.
-/

namespace FlexStyle.Tree

variable {s t t' : Tree} {n m : NodeId} {id : BoxId}

/-! ## Boxes belong to nodes -/

/-- The box of a node is there. -/
theorem Sound.isSome_slot? (h : t.Sound) (hid : t.box? n = some id) :
    (t.store.slot? id).isSome = true := by
  obtain ⟨node, hnode, rfl⟩ := box?_eq_some_iff.mp hid
  obtain ⟨style, hstyle⟩ := h.housed hnode
  obtain ⟨box, hslot, -⟩ := Option.map_eq_some_iff.mp hstyle
  exact Option.isSome_iff_exists.mpr ⟨box, hslot⟩

/-- No box belongs to two nodes. -/
theorem Sound.eq_of_box? (h : t.Sound) (hn : t.box? n = some id) (hm : t.box? m = some id) :
    n = m := by
  obtain ⟨node, hnode, hid⟩ := box?_eq_some_iff.mp hn
  obtain ⟨other, hother, hid'⟩ := box?_eq_some_iff.mp hm
  exact h.apart hnode hother (hid.trans hid'.symm)

theorem contains_iff_box? : t.contains n = true ↔ ∃ id, t.box? n = some id := by
  rw [contains_eq_isSome_box?, Option.isSome_iff_exists]

/-- Whether every box belongs to a node. -/
def Owned (t : Tree) : Prop :=
  ∀ id, (t.store.slot? id).isSome = true → ∃ n, t.box? n = some id

theorem owned_withFont (config : Config) (fonts : Fonts) (font : FontId) :
    (withFont config fonts font).Owned := by
  intro id hid
  simp [withFont, BoxStore.empty, BoxStore.slot?] at hid

/-- A new box belongs to the new node, and the others to those that they belonged to. -/
theorem owned_create (h : t.Sound) (howned : t.Owned) : t.create.2.Owned := by
  intro id hid
  have hslot : t.create.2.store.slot? id =
      if id = t.store.create.1 then some ⟨t.store.initial, true⟩ else t.store.slot? id :=
    BoxStore.slot?_create t.store h.exact id
  rw [hslot] at hid
  split at hid
  case isTrue heq =>
    refine ⟨t.create.1, ?_⟩
    rw [box?_create, if_pos rfl, heq]
  case isFalse =>
    obtain ⟨n, hn⟩ := howned id hid
    refine ⟨n, ?_⟩
    rw [box?_create, if_neg, hn]
    -- the new node was not there
    rintro rfl
    rw [box?, node?_create_fst] at hn
    cases hn

/-- Application gives no node another box. -/
theorem box?_apply (h : t.Sound) (n m : NodeId) : (t.apply n).1.box? m = t.box? m := by
  rcases apply_cases h n with ⟨-, hsame⟩ | ⟨node, style, hnode, -, ha, -⟩
  · rw [hsame]
  · rw [box?, ha.node?, box?]
    split
    case isTrue hm =>
      rw [hm, hnode]
      rfl
    case isFalse => rfl

/-- Application neither adds nor removes boxes. -/
theorem isSome_slot?_apply (h : t.Sound) (n : NodeId) (id : BoxId) :
    ((t.apply n).1.store.slot? id).isSome = (t.store.slot? id).isSome := by
  have hstyle : ∀ store : BoxStore, (store.slot? id).isSome = (store.style? id).isSome :=
    fun store => Option.isSome_map.symm
  rcases apply_cases h n with ⟨-, hsame⟩ | ⟨node, style, -, hbox, ha, -⟩
  · rw [hsame]
  · rw [hstyle, hstyle, ha.style?]
    split
    case isTrue hid => rw [hid, hbox]; rfl
    case isFalse => rfl

theorem owned_apply (h : t.Sound) (howned : t.Owned) (n : NodeId) : (t.apply n).1.Owned := by
  intro id hid
  rw [isSome_slot?_apply h] at hid
  obtain ⟨m, hm⟩ := howned id hid
  exact ⟨m, by rw [box?_apply h, hm]⟩

/-! ## What removal takes away -/

/-- What a tree is like after a node has been removed with all that is beneath it. -/
structure Removes (t : Tree) (n : NodeId) (t' : Tree) : Prop where
  gone : ∀ m, n ∈ t.shape.path m → t'.node? m = none
  kept : ∀ m, n ∉ t.shape.path m → t'.node? m = t.node? m
  /-- The boxes of the nodes that are gone are given up. -/
  vacated : ∀ m id, n ∈ t.shape.path m → t.box? m = some id → t'.store.slot? id = none
  /-- All other boxes keep their records and their marks. -/
  left : ∀ m id, n ∉ t.shape.path m → t.box? m = some id →
    t'.store.slot? id = t.store.slot? id

/-- A removal takes away the nodes in the tree of a node with their boxes, and nothing else. -/
theorem removes_removeSubtree (h : t.Sound) (hok : t.removeSubtree n = .ok t') :
    t.Removes n t' := by
  have hnode := node?_removeSubtree h hok
  have hslot := slot?_removeSubtree hok
  have hmem : ∀ m, n ∈ t.shape.path m ↔ m ∈ (t.shape.treeAt n).toList :=
    fun m => Forest.mem_path_iff h.nodup
  constructor
  · intro m hm
    rw [hnode, if_pos ((hmem m).mp hm)]
  · intro m hm
    rw [hnode, if_neg fun hin => hm ((hmem m).mpr hin)]
  · intro m id hm hid
    rw [hslot, if_pos ⟨m, (hmem m).mp hm, hid⟩]
  · intro m id hm hid
    rw [hslot, if_neg]
    -- the box is that of one node only
    rintro ⟨m', hm', hid'⟩
    rw [h.eq_of_box? hid hid'] at hm
    exact hm ((hmem m').mpr hm')

/-- A removal leaves no box without a node. -/
theorem owned_removeSubtree (h : t.Sound) (howned : t.Owned)
    (hok : t.removeSubtree n = .ok t') : t'.Owned := by
  have hremoves := removes_removeSubtree h hok
  intro id hid
  have hbefore : (t.store.slot? id).isSome = true := by
    rw [slot?_removeSubtree hok] at hid
    split at hid
    · cases hid
    · exact hid
  -- the owner is still there, since its box is
  obtain ⟨m, hm⟩ := howned id hbefore
  refine ⟨m, ?_⟩
  by_cases hpath : n ∈ t.shape.path m
  · rw [hremoves.vacated m id hpath hm] at hid
    cases hid
  · rw [box?, hremoves.kept m hpath]
    exact hm

/-- No command leaves a box without a node. -/
theorem owned_after (h : t.Sound) (howned : t.Owned) (c : Command) : (t.after c).Owned := by
  rcases t.writes_after c with rfl | ⟨root, rfl⟩ | ⟨n, rfl⟩ | rfl | hwrites
  · exact owned_create h howned
  · rcases t.after_flush_cases root with hsame | ⟨applied, hok⟩
    · rwa [hsame]
    · exact flush_induction (P := Owned) (fun _ _ ho => ho) (fun _ m hs ho => owned_apply hs ho m)
        h howned hok
  · rcases t.after_removeSubtree_cases n with hsame | hok
    · rwa [hsame]
    · exact owned_removeSubtree h howned hok
  · intro id hid
    have hslot : (t.after .takeDirty).store.slot? id = _ := BoxStore.slot?_takeDirty t.store id
    rw [hslot, Option.isSome_map] at hid
    exact howned id hid
  · intro id hid
    rw [hwrites.store] at hid
    obtain ⟨n, hn⟩ := howned id hid
    exact ⟨n, (hwrites.box? n).trans hn⟩

/-- In all trees that can be reached, every box belongs to a node. -/
theorem Reachable.owned (h : Reachable AnyCommand t) : t.Owned := by
  induction h with
  | start config fonts font => exact owned_withFont config fonts font
  | @step t c ht _ ih => exact owned_after ht.sound ih c

/-! ## One to one -/

/-- How the nodes of a tree go together with the boxes of its store. The shape lists the nodes. -/
structure OneToOne (t : Tree) : Prop where
  nodup : t.shape.toList.Nodup
  listed : ∀ n, n ∈ t.shape.toList ↔ t.contains n = true
  housed : ∀ {n id}, t.box? n = some id → (t.store.slot? id).isSome = true
  owned : ∀ id, (t.store.slot? id).isSome = true → ∃ n, t.box? n = some id
  apart : ∀ {n m id}, t.box? n = some id → t.box? m = some id → n = m
  /-- There are as many boxes as nodes. -/
  size : t.store.size = t.shape.toList.length

/-- The boxes of the nodes, listed with them, are the boxes that are there. -/
theorem size_of_owned (h : t.Sound) (howned : t.Owned) :
    t.store.size = t.shape.toList.length := by
  have hlength : (t.shape.toList.filterMap t.box?).length = t.shape.toList.length := by
    rw [List.length_filterMap_eq_countP, List.countP_eq_length]
    intro n hn
    exact Option.isSome_iff_exists.mpr (contains_iff_box?.mp ((h.mem_shape n).mp hn))
  have hnodup : (t.shape.toList.filterMap t.box?).Nodup :=
    h.nodup.filterMap fun n m id hn hm => h.eq_of_box? hn hm
  have hperm : t.store.occupied.Perm (t.shape.toList.filterMap t.box?) := by
    refine (List.perm_ext_iff_of_nodup t.store.nodup_occupied hnodup).mpr fun id => ?_
    rw [BoxStore.mem_occupied, List.mem_filterMap]
    constructor
    · intro hid
      obtain ⟨n, hn⟩ := howned id hid
      exact ⟨n, (h.mem_shape n).mpr (contains_iff_box?.mpr ⟨id, hn⟩), hn⟩
    · rintro ⟨n, -, hn⟩
      exact h.isSome_slot? hn
  rw [← BoxStore.length_occupied h.exact, hperm.length_eq, hlength]

/-- If every box belongs to a node, nodes and boxes go together one to one. -/
theorem one_to_one (h : t.Sound) (howned : t.Owned) : t.OneToOne where
  nodup := h.nodup
  listed := h.mem_shape
  housed hn := h.isSome_slot? hn
  owned := howned
  apart hn hm := h.eq_of_box? hn hm
  size := size_of_owned h howned

/-- What creation adds to a tree: a node without style, with the text style of roots, and with an
initial box in a slot that was vacant. -/
structure Adds (t : Tree) : Prop where
  unused : t.node? t.create.1 = none
  node : t.create.2.node? t.create.1 =
    some { table := {}, text := t.rootText, box := t.store.create.1, font := none,
           scheduled := false }
  vacant : t.store.slot? t.store.create.1 = none
  box : t.create.2.store.slot? t.store.create.1 = some ⟨.initial t.config.webDefaults, true⟩
  others : ∀ m, m ≠ t.create.1 → t.create.2.node? m = t.node? m
  boxes : ∀ id, id ≠ t.store.create.1 → t.create.2.store.slot? id = t.store.slot? id

/-- What creation adds to a sound tree. -/
theorem adds_create (h : t.Sound) : t.Adds where
  unused := node?_create_fst t
  node := by rw [node?_create, if_pos rfl]
  vacant := BoxStore.slot?_create_fst h.exact
  box := by
    rw [← h.initial]
    exact BoxStore.slot?_create_self h.exact
  others m hm := by rw [node?_create, if_neg hm]
  boxes id hid := BoxStore.slot?_create_of_ne h.exact hid

/-- **Nodes and boxes correspond one to one** in every tree that can be reached. A removal succeeds
on every node, and takes away the node and all beneath it with their boxes, and nothing else; a
creation adds a node with an initial box, whether or not its slot is used again. -/
theorem Reachable.nodes_and_boxes (h : Reachable AnyCommand t) :
    t.OneToOne ∧
      (∀ n, t.contains n = true → ∃ t', t.removeSubtree n = .ok t' ∧ t.Removes n t') ∧ t.Adds := by
  refine ⟨one_to_one h.sound h.owned, fun n hn => ?_, adds_create h.sound⟩
  have hok := removeSubtree_of_contains hn
  exact ⟨_, hok, removes_removeSubtree h.sound hok⟩

/-- After a removal of two nodes, the next node takes over the slot of one of them, and starts
without its style; the node that is left can be removed with its own box. -/
theorem nodes_and_boxes_reused :
    let t := (withFont .default (.ofHost .default fun _ => .fixed 16) .builtIn).run
      [.create, .create, .append ⟨0⟩ ⟨1⟩, .create, .set ⟨1⟩ .inline "width" [.integer 5],
        .flush ⟨0⟩, .removeSubtree ⟨0⟩]
    t.store.slots.size = 3 ∧ t.store.size = 1 ∧ t.create.1 = ⟨3⟩ ∧ t.store.create.1 = ⟨1⟩ ∧
      t.OneToOne ∧ t.Adds ∧ ∃ t', t.removeSubtree ⟨2⟩ = .ok t' ∧ t.Removes ⟨2⟩ t' := by
  intro t
  have hreach : Reachable AnyCommand t := (Reachable.start _ _ _).run _
  obtain ⟨hone, hremoves, hadds⟩ := hreach.nodes_and_boxes
  obtain ⟨hslots, hsize, hnumber, hbox, hleft⟩ :
      t.store.slots.size = 3 ∧ t.store.size = 1 ∧ t.create.1 = ⟨3⟩ ∧ t.store.create.1 = ⟨1⟩ ∧
        t.contains ⟨2⟩ = true := by
    decide +kernel
  exact ⟨hslots, hsize, hnumber, hbox, hone, hadds, hremoves ⟨2⟩ hleft⟩

end FlexStyle.Tree
