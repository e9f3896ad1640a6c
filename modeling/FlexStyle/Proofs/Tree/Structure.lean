import FlexStyle.Proofs.Forest
import FlexStyle.Proofs.Tree.Evolution

/-!
# How the shape of a tree evolves

Operations on the shape keep a tree sound, and they are no more than the other writes: a node that
is given another parent waits afterwards.

- `Tree.evolves_append`, `Tree.evolves_detach`: nodes that are moved.
- `Tree.evolves_removeSubtree`: nodes that are given up with their boxes;
  `Tree.slot?_removeSubtree`: the boxes afterwards.
- `Tree.sound_withFont`, `Tree.sound_create`: the first tree, and one with a new node.
-/

namespace FlexStyle.Tree

variable {ordered : Prop} {s t : Tree} {n : NodeId}

/-! ## Changes of the shape -/

/-- A change of the shape that gives a new parent only to a node that is scheduled with it. -/
theorem evolves_reshape (h : t.Sound) {shape : Forest NodeId}
    (hperm : shape.toList.Perm t.shape.toList)
    (hparent : ∀ m, m ≠ n → shape.parent? m = t.shape.parent? m) :
    t.Evolves ordered ({ t with shape }.schedule n) := by
  have hsame := schedule_same { t with shape } n
  have hcontains : ∀ m, ({ t with shape }.schedule n).contains m = t.contains m :=
    fun m => contains_schedule { t with shape } n m
  refine .of_kept h hsame.config hsame.fonts hsame.rootText (by rw [hsame.store]) ?_ ?_ ?_ ?_
    (fun hqueued => queued_schedule (t := { t with shape }) hqueued)
  · intro m after hafter
    rw [node?_schedule] at hafter
    split at hafter
    case isTrue =>
      -- the node that is moved waits, and need not keep its parent
      obtain ⟨before, hbefore, rfl⟩ := Option.map_eq_some_iff.mp hafter
      refine ⟨before, hbefore, rfl, rfl, ?_, .refl (h.tidy hbefore), fun _ => rfl, nofun, nofun,
        nofun, nofun⟩
      rw [hsame.store]
    case isFalse hmn =>
      refine ⟨after, hafter, rfl, rfl, ?_, .refl (h.tidy hafter), id, fun _ => rfl,
        fun _ _ _ => rfl, fun _ => ?_, fun _ _ => rfl⟩
      · rw [hsame.store]
      · rw [parent?, hsame.shape, parent?]
        exact hparent m hmn
  · rw [hsame.shape]
    exact hperm.nodup_iff.mpr h.nodup
  · intro m
    rw [hsame.shape, hcontains, ← h.mem_shape]
    exact hperm.mem_iff
  · rw [hsame.store]
    exact h.exact

/-- A node that is appended is moved with its tree, and waits. -/
theorem evolves_append (h : t.Sound) {parent child : NodeId} {t' : Tree}
    (hok : t.append parent child = .ok t') : t.Evolves ordered t' := by
  unfold append at hok
  split at hok
  · cases hok
  · split at hok
    · cases hok
    · split at hok
      · cases hok
      · rename_i hparent hchild hbeneath
        cases hok
        simp only [Bool.not_eq_true', Bool.not_eq_false] at hparent hchild
        -- the parent is not in the tree that is moved
        have hmem : parent ∈ (t.shape.prune child).toList := by
          rw [Forest.mem_prune_iff h.nodup, ← Forest.mem_path_iff h.nodup]
          exact ⟨(h.mem_shape parent).mpr hparent, hbeneath⟩
        refine evolves_reshape h ?_ fun m hm => Forest.parent?_graft_of_ne h.nodup hmem hm
        refine (Forest.toList_graft_perm (Forest.nodup_prune h.nodup child) hmem).trans ?_
        exact List.perm_append_comm.trans (Forest.toList_prune_perm h.nodup child).symm

/-- A node that is detached is moved with its tree, and waits. -/
theorem evolves_detach (h : t.Sound) {t' : Tree} (hok : t.detach n = .ok t') :
    t.Evolves ordered t' := by
  unfold detach at hok
  split at hok
  · cases hok
  · cases hok
    refine evolves_reshape h ?_ fun m hm => Forest.parent?_detached_of_ne h.nodup hm
    rw [Forest.toList_append]
    exact List.perm_append_comm.trans (Forest.toList_prune_perm h.nodup n).symm

/-! ## Nodes given up and boxes read -/

/-- What giving up nodes leaves of a tree. -/
structure Without (s t : Tree) (gone : List NodeId) : Prop where
  config : t.config = s.config
  fonts : t.fonts = s.fonts
  rootText : t.rootText = s.rootText
  queue : t.queue = s.queue
  initial : t.store.initial = s.store.initial
  exact : t.store.Exact
  node? : ∀ m, t.node? m = if m ∈ gone then none else s.node? m
  style? : ∀ {m node}, t.node? m = some node → t.store.style? node.box = s.store.style? node.box

/-- A node that is given up leaves the others with their boxes. -/
theorem discard_without (hexact : t.store.Exact)
    (hapart : ∀ {n m node other}, t.node? n = some node → t.node? m = some other →
      node.box = other.box → n = m) (n : NodeId) : t.Without (t.discard n) [n] := by
  have hnode := t.node?_discard n
  unfold discard at hnode ⊢
  cases hn : t.node? n with
  | none =>
    refine ⟨rfl, rfl, rfl, rfl, rfl, hexact, ?_, fun _ => rfl⟩
    intro m
    simp only [List.mem_singleton]
    split
    case isTrue h => rw [h, hn]
    case isFalse => rfl
  | some node =>
    rw [hn] at hnode
    refine ⟨rfl, rfl, rfl, rfl, BoxStore.initial_remove _ _, BoxStore.exact_remove hexact _, ?_,
      ?_⟩
    · intro m
      simpa only [List.mem_singleton] using hnode m
    · intro m other hother
      rw [hnode] at hother
      split at hother
      case isTrue => cases hother
      case isFalse hmn =>
        have hne : other.box ≠ node.box := fun he => hmn (hapart hother hn he)
        show (t.store.remove node.box).style? other.box = _
        rw [BoxStore.style?, BoxStore.slot?_remove, if_neg hne, BoxStore.style?]

/-- Nodes that are given up one by one leave the others with their boxes. -/
theorem foldl_discard_without (gone : List NodeId) (hexact : t.store.Exact)
    (hapart : ∀ {n m node other}, t.node? n = some node → t.node? m = some other →
      node.box = other.box → n = m) : t.Without (gone.foldl discard t) gone := by
  induction gone generalizing t with
  | nil =>
    exact ⟨rfl, rfl, rfl, rfl, rfl, hexact, fun m => by rw [if_neg List.not_mem_nil]; rfl,
      fun _ => rfl⟩
  | cons first rest ih =>
    have hfirst := discard_without hexact hapart first
    have hold : ∀ {m node}, (t.discard first).node? m = some node → t.node? m = some node := by
      intro m node hm
      rw [hfirst.node?] at hm
      split at hm
      · cases hm
      · exact hm
    -- nodes that are left were there before, and so have boxes of their own
    have hrest := ih hfirst.exact fun hn hm => hapart (hold hn) (hold hm)
    have hstill : ∀ {m node}, (rest.foldl discard (t.discard first)).node? m = some node →
        (t.discard first).node? m = some node := by
      intro m node hm
      rw [hrest.node?] at hm
      split at hm
      · cases hm
      · exact hm
    refine ⟨hrest.config.trans hfirst.config, hrest.fonts.trans hfirst.fonts,
      hrest.rootText.trans hfirst.rootText, hrest.queue.trans hfirst.queue,
      hrest.initial.trans hfirst.initial, hrest.exact, ?_, ?_⟩
    · intro m
      rw [List.foldl_cons, hrest.node?, hfirst.node?]
      by_cases hm : m = first <;> by_cases hr : m ∈ rest <;> simp [hm, hr]
    · intro m node hm
      exact (hrest.style? hm).trans (hfirst.style? (hstill hm))

/-- The nodes that a removal leaves are as they were. -/
theorem evolves_removeSubtree (h : t.Sound) {t' : Tree} (hok : t.removeSubtree n = .ok t') :
    t.Evolves ordered t' := by
  unfold removeSubtree at hok
  split at hok
  · cases hok
  · cases hok
    have hw := foldl_discard_without (t.shape.treeAt n).toList h.exact h.apart
    have hold : ∀ m node, ((t.shape.treeAt n).toList.foldl discard t).node? m = some node →
        m ∉ (t.shape.treeAt n).toList ∧ t.node? m = some node := by
      intro m node hm
      rw [hw.node?] at hm
      split at hm
      · cases hm
      · exact ⟨‹_›, hm⟩
    refine .of_kept h hw.config hw.fonts hw.rootText hw.initial ?_ (Forest.nodup_prune h.nodup n)
      ?_ hw.exact ?_
    · -- a node that is left is outside of the tree, where parents stay
      intro m node hm
      obtain ⟨hout, hbefore⟩ := hold m node hm
      refine ⟨node, hbefore, rfl, rfl, hw.style? hm, .refl (h.tidy hbefore), id, fun _ => rfl,
        fun _ _ _ => rfl, fun _ => Forest.parent?_prune h.nodup hout, fun _ _ => rfl⟩
    · intro m
      show m ∈ (t.shape.prune n).toList ↔
        (((t.shape.treeAt n).toList.foldl discard t).node? m).isSome = true
      rw [Forest.mem_prune_iff h.nodup, hw.node?, h.mem_shape]
      split
      case isTrue hm => simp [hm]
      case isFalse hm => simp [hm, contains]
    · intro hqueued m hm
      show m ∈ ((t.shape.treeAt n).toList.foldl discard t).queue
      rw [hw.queue]
      refine hqueued m ?_
      obtain ⟨node, hnode, hwaits⟩ := exists_of_isScheduled hm
      rw [isScheduled, (hold m node hnode).2]
      exact hwaits

/-- The box of a node that is given up is given up too, and no other one. -/
theorem slot?_discard (t : Tree) (n : NodeId) (id : BoxId) :
    (t.discard n).store.slot? id = if t.box? n = some id then none else t.store.slot? id := by
  rw [box?]
  unfold discard
  cases hnode : t.node? n with
  | none => rfl
  | some node =>
    show (t.store.remove node.box).slot? id = _
    rw [BoxStore.slot?_remove, Option.map_some]
    simp only [Option.some.injEq, eq_comm]

theorem slot?_foldl_discard (gone : List NodeId) (t : Tree) (id : BoxId) :
    (gone.foldl discard t).store.slot? id =
      if ∃ n ∈ gone, t.box? n = some id then none else t.store.slot? id := by
  induction gone generalizing t with
  | nil => simp
  | cons first rest ih =>
    rw [List.foldl_cons, ih, slot?_discard]
    by_cases hfirst : t.box? first = some id
    · simp [hfirst]
    · -- the box is none of the first node, and so one of the others or of none
      have hrest : (∃ n ∈ rest, (t.discard first).box? n = some id) ↔
          ∃ n ∈ first :: rest, t.box? n = some id := by
        simp only [box?_discard, List.mem_cons, Option.ite_none_left_eq_some]
        constructor
        · rintro ⟨n, hn, -, hbox⟩
          exact ⟨n, .inr hn, hbox⟩
        · rintro ⟨n, rfl | hn, hbox⟩
          · exact absurd hbox hfirst
          · exact ⟨n, hn, fun heq => hfirst (heq ▸ hbox), hbox⟩
      simp only [hrest, hfirst, if_false]

/-- A removal gives up the nodes of a tree, and takes that tree out of the shape. -/
theorem removeSubtree_of_contains (hn : t.contains n = true) :
    t.removeSubtree n =
      .ok { (t.shape.treeAt n).toList.foldl discard t with shape := t.shape.prune n } := by
  rw [removeSubtree, hn]
  rfl

theorem removeSubtree_ok {t' : Tree} (hok : t.removeSubtree n = .ok t') :
    t' = { (t.shape.treeAt n).toList.foldl discard t with shape := t.shape.prune n } := by
  unfold removeSubtree at hok
  split at hok
  · cases hok
  · exact (Except.ok.inj hok).symm

/-- The nodes that are given up with a node are those in its tree. -/
theorem node?_removeSubtree (h : t.Sound) {t' : Tree} (hok : t.removeSubtree n = .ok t')
    (m : NodeId) :
    t'.node? m = if m ∈ (t.shape.treeAt n).toList then none else t.node? m := by
  rw [removeSubtree_ok hok]
  exact (foldl_discard_without (t.shape.treeAt n).toList h.exact h.apart).node? m

/-- The boxes that are given up with a node are those of the nodes in its tree. -/
theorem slot?_removeSubtree {t' : Tree} (hok : t.removeSubtree n = .ok t') (id : BoxId) :
    t'.store.slot? id =
      if ∃ m ∈ (t.shape.treeAt n).toList, t.box? m = some id then none
      else t.store.slot? id := by
  rw [removeSubtree_ok hok]
  exact slot?_foldl_discard _ t id

/-- Reading the marks of the boxes. -/
theorem evolves_takeDirty (h : t.Sound) :
    t.Evolves ordered { t with store := t.store.takeDirty.2 } := by
  refine .of_kept h rfl rfl rfl rfl ?_ h.nodup h.mem_shape (BoxStore.exact_takeDirty h.exact)
    fun hqueued => hqueued
  intro m node hm
  exact ⟨node, hm, rfl, rfl, BoxStore.style?_takeDirty _ _, .refl (h.tidy hm), id, fun _ => rfl,
    fun _ _ _ => rfl, fun _ => rfl, fun _ _ => rfl⟩

/-! ## New nodes -/

theorem sound_withFont (config : Config) (fonts : Fonts) (font : FontId) :
    (withFont config fonts font).Sound where
  nodup := List.nodup_nil
  mem_shape n := by simp [withFont, contains, node?]
  exact := BoxStore.exact_empty _
  initial := rfl
  housed hnode := by simp [withFont, node?] at hnode
  apart hnode := by simp [withFont, node?] at hnode
  tidy hnode := by simp [withFont, node?] at hnode

theorem queued_withFont (config : Config) (fonts : Fonts) (font : FontId) :
    (withFont config fonts font).Queued := by
  intro n hn
  simp [withFont, isScheduled, node?] at hn

/-- A new node is not in the shape yet. -/
theorem create_fst_notMem (h : t.Sound) : t.create.1 ∉ t.shape.toList := by
  rw [h.mem_shape, contains, node?_create_fst]
  simp

/-- A node after a creation is the new one, or it was there before. -/
theorem node?_create_cases {node : Node} (hnode : t.create.2.node? n = some node) :
    (n = t.create.1 ∧ node = ⟨{}, t.rootText, t.store.create.1, none, false⟩) ∨
      (n ≠ t.create.1 ∧ t.node? n = some node) := by
  rw [node?_create] at hnode
  split at hnode
  case isTrue heq =>
    cases hnode
    exact .inl ⟨heq, rfl⟩
  case isFalse hne => exact .inr ⟨hne, hnode⟩

theorem parent?_create (t : Tree) (n : NodeId) : t.create.2.parent? n = t.parent? n := by
  show (t.shape ++ .tree t.create.1 .nil .nil).parent? n = t.shape.parent? n
  by_cases hn : n ∈ t.shape.toList
  · rw [Forest.parent?, Forest.path_append_of_mem _ hn, Forest.parent?]
  · rw [Forest.parent?_eq_none hn, Forest.parent?, Forest.path, Forest.path?_append,
      Forest.path?_eq_none_iff.mpr hn, Option.none_or]
    unfold Forest.path?
    split <;> rfl

/-- The boxes of the nodes that are there are not the one of a new node. -/
theorem box_ne_create (h : t.Sound) {node : Node} (hnode : t.node? n = some node) :
    node.box ≠ t.store.create.1 := by
  intro heq
  obtain ⟨style, hstyle⟩ := h.housed hnode
  rw [heq, BoxStore.style?, BoxStore.slot?_create_fst h.exact] at hstyle
  cases hstyle

theorem style?_create_of_node? (h : t.Sound) {node : Node} (hnode : t.node? n = some node) :
    t.create.2.store.style? node.box = t.store.style? node.box := by
  show t.store.create.2.style? node.box = _
  rw [BoxStore.style?, BoxStore.slot?_create_of_ne h.exact (box_ne_create h hnode),
    BoxStore.style?]

theorem style?_create_self (h : t.Sound) :
    t.create.2.store.style? t.store.create.1 = some t.store.initial := by
  show t.store.create.2.style? t.store.create.1 = _
  rw [BoxStore.style?, BoxStore.slot?_create_self h.exact]
  rfl

/-- A tree is sound with a new node. -/
theorem sound_create (h : t.Sound) : t.create.2.Sound where
  nodup := by
    show (t.shape ++ .tree t.create.1 .nil .nil).toList.Nodup
    rw [Forest.toList_append, List.nodup_append']
    refine ⟨h.nodup, List.nodup_singleton _, fun n hn hmem => create_fst_notMem h ?_⟩
    rw [List.mem_singleton.mp hmem] at hn
    exact hn
  mem_shape n := by
    show n ∈ (t.shape ++ .tree t.create.1 .nil .nil).toList ↔ _
    rw [Forest.toList_append, List.mem_append, h.mem_shape, contains, contains, node?_create]
    by_cases hn : n = t.create.1 <;> simp [hn]
  exact := BoxStore.exact_create h.exact
  initial := (BoxStore.initial_create _).trans h.initial
  housed := by
    intro n node hnode
    rcases node?_create_cases hnode with ⟨-, rfl⟩ | ⟨-, hold⟩
    · exact ⟨_, style?_create_self h⟩
    · rw [style?_create_of_node? h hold]
      exact h.housed hold
  apart := by
    intro n m node other hnode hother hbox
    rcases node?_create_cases hnode with ⟨hn, rfl⟩ | ⟨-, hnode⟩ <;>
      rcases node?_create_cases hother with ⟨hm, rfl⟩ | ⟨-, hother⟩
    · exact hn.trans hm.symm
    · exact absurd hbox.symm (box_ne_create h hother)
    · exact absurd hbox (box_ne_create h hnode)
    · exact h.apart hnode hother hbox
  tidy := by
    intro n node hnode
    rcases node?_create_cases hnode with ⟨-, rfl⟩ | ⟨-, hold⟩
    · exact Table.tidy_empty
    · exact h.tidy hold

theorem queued_create (h : t.Queued) : t.create.2.Queued := by
  intro n hn
  obtain ⟨node, hnode, hwaits⟩ := exists_of_isScheduled hn
  rcases node?_create_cases hnode with ⟨-, rfl⟩ | ⟨-, hold⟩
  · cases hwaits
  · refine h n ?_
    rw [isScheduled_of_node? hold]
    exact hwaits

end FlexStyle.Tree
