import FlexStyle.Proofs.Forest.Lineage
import FlexStyle.Proofs.Tree.Flush

/-!
# Which nodes are visited

A walk down a row of trees starts at the roots and goes on beneath every node whose text style
changes; a flush is a sequence of such walks. Both visit the nodes where they start, the children of
the nodes whose text style has come out as another one, and no others. No node is visited twice, and
none before its parent.

- `Tree.Visits`: what it means that a list of nodes is visited in this way.
- `Tree.Visits.root`, `Tree.Visits.append`: how visits are put together. What comes later may not
  meet what came before, and may not hold its parents.
- `Tree.visits_applyForest`, `Tree.visits_applyAll`: walks, and walks in a row. That no later walk
  meets an earlier one rests on the order of the queue: a walk that starts deeper has no way to an
  ancestor.
- `Tree.turns`, `Tree.leftOver`: how a flush divides the queue; `Tree.visits_flush` says what it
  visits.
-/

namespace FlexStyle.Tree

variable {s t u : Tree} {n m : NodeId} {nodes : List NodeId} {starts : NodeId → Prop}

/-! ## Nodes that are not applied -/

/-- Application changes no other node. -/
theorem node?_apply_of_ne (h : t.Sound) (hne : m ≠ n) : (t.apply n).1.node? m = t.node? m := by
  rcases apply_cases h n with ⟨-, hsame⟩ | ⟨node, style, -, -, ha, -⟩
  · rw [hsame]
  · rw [ha.node?, if_neg hne]

/-- Applications change no other nodes. -/
theorem node?_applyEach_of_notMem (h : t.Sound) (hm : m ∉ nodes) :
    (t.applyEach nodes).node? m = t.node? m := by
  induction nodes generalizing t with
  | nil => rfl
  | cons n nodes ih =>
    obtain ⟨hne, hrest⟩ := not_or.mp (mt List.mem_cons.mpr hm)
    rw [applyEach_cons, ih (sound_apply h n) hrest, node?_apply_of_ne h hne]

/-- Whether a node has another text style in another tree. -/
def Retexts (s t : Tree) (n : NodeId) : Prop :=
  (t.node? n).map (·.text) ≠ (s.node? n).map (·.text)

instance (s t : Tree) (n : NodeId) : Decidable (s.Retexts t n) :=
  inferInstanceAs (Decidable (_ ≠ _))

theorem retexts_congr {s' t' : Tree} (hs : s'.node? n = s.node? n) (ht : t'.node? n = t.node? n) :
    s'.Retexts t' n ↔ s.Retexts t n := by
  rw [Retexts, hs, ht, Retexts]

/-- Application reports whether a node has another text style. -/
theorem retexts_apply (h : t.Sound) (n : NodeId) :
    t.Retexts (t.apply n).1 n ↔ (t.apply n).2 = true := by
  rcases apply_cases h n with ⟨-, hsame⟩ | ⟨node, style, hnode, -, ha, hchanged⟩
  · rw [hsame]
    simp [Retexts]
  · rw [hchanged, Retexts, ha.node?, if_pos rfl, hnode]
    show some (t.foundText n node) ≠ some node.text ↔ _
    rw [ne_eq, Option.some.injEq, eq_comm]

/-! ## Visits -/

/-- The nodes that are visited from `s` to `t`: the starts, and the children of those whose text
style has become another one, each once, and parents first. -/
structure Visits (s t : Tree) (starts : NodeId → Prop) (nodes : List NodeId) : Prop where
  tree : t = s.applyEach nodes
  nodup : nodes.Nodup
  mem_iff : ∀ m, m ∈ nodes ↔ starts m ∨ ∃ p ∈ nodes, s.parent? m = some p ∧ s.Retexts t p
  /-- No node comes before its parent. -/
  parents_first : nodes.Pairwise fun a b => s.parent? a ≠ some b

namespace Visits

theorem nil (h : ∀ m, ¬ starts m) : s.Visits s starts [] where
  tree := rfl
  nodup := List.nodup_nil
  mem_iff m := by simp [h m]
  parents_first := List.Pairwise.nil

theorem sound (h : s.Visits t starts nodes) (hs : s.Sound) : t.Sound := by
  rw [h.tree]
  exact sound_applyEach hs nodes

theorem shape (h : s.Visits t starts nodes) (hs : s.Sound) : t.shape = s.shape := by
  rw [h.tree]
  exact (base_applyEach hs nodes).shape

theorem parent? (h : s.Visits t starts nodes) (hs : s.Sound) (m : NodeId) :
    t.parent? m = s.parent? m := by
  rw [Tree.parent?, h.shape hs, Tree.parent?]

theorem node?_of_notMem (h : s.Visits t starts nodes) (hs : s.Sound) (hm : m ∉ nodes) :
    t.node? m = s.node? m := by
  rw [h.tree]
  exact node?_applyEach_of_notMem hs hm

/-- The starts of visits may be described in another way, if all of them are visited. -/
theorem of_starts (h : s.Visits t starts nodes) {starts' : NodeId → Prop}
    (hsub : ∀ m, starts m → starts' m) (hmem : ∀ m, starts' m → m ∈ nodes) :
    s.Visits t starts' nodes where
  tree := h.tree
  nodup := h.nodup
  parents_first := h.parents_first
  mem_iff m := by
    constructor
    · exact fun hm => ((h.mem_iff m).mp hm).imp_left (hsub m)
    · rintro (hstart | hchild)
      · exact hmem m hstart
      · exact (h.mem_iff m).mpr (.inr hchild)

/-- A node and what is visited because of it. -/
theorem root (hs : s.Sound) {root : NodeId}
    (h : (s.apply root).1.Visits t
      (fun m => (s.apply root).2 = true ∧ s.parent? m = some root) nodes)
    (hnew : root ∉ nodes) (horder : ∀ b ∈ nodes, s.parent? root ≠ some b) :
    s.Visits t (· = root) (root :: nodes) where
  tree := h.tree
  nodup := List.nodup_cons.mpr ⟨hnew, h.nodup⟩
  parents_first := by
    refine List.pairwise_cons.mpr ⟨horder, h.parents_first.imp fun {a b} hab => ?_⟩
    rwa [Tree.parent?, (base_apply hs root).shape] at hab
  mem_iff m := by
    have hsound := sound_apply hs root
    have hparent : (s.apply root).1.parent? m = s.parent? m := by
      rw [Tree.parent?, (base_apply hs root).shape, Tree.parent?]
    have hroot : s.Retexts t root ↔ (s.apply root).2 = true := by
      rw [← retexts_apply hs, retexts_congr rfl (h.node?_of_notMem hsound hnew)]
    have hrest : ∀ p ∈ nodes, (s.apply root).1.Retexts t p ↔ s.Retexts t p := by
      intro p hp
      have hne : p ≠ root := fun he => hnew (he ▸ hp)
      exact retexts_congr (node?_apply_of_ne hs hne) rfl
    rw [List.mem_cons, h.mem_iff, hparent]
    constructor
    · rintro (rfl | ⟨hchanged, hp⟩ | ⟨p, hmem, hp, htext⟩)
      · exact .inl rfl
      · exact .inr ⟨root, List.mem_cons_self, hp, hroot.mpr hchanged⟩
      · exact .inr ⟨p, List.mem_cons_of_mem root hmem, hp, (hrest p hmem).mp htext⟩
    · rintro (rfl | ⟨p, hmem, hp, htext⟩)
      · exact .inl rfl
      · rcases List.mem_cons.mp hmem with rfl | hmem
        · exact .inr (.inl ⟨hroot.mp htext, hp⟩)
        · exact .inr (.inr ⟨p, hmem, hp, (hrest p hmem).mpr htext⟩)

/-- Visits after others, of other nodes that are not parents of those. -/
theorem append {starts₁ starts₂ : NodeId → Prop} {now later : List NodeId} (hs : s.Sound)
    (h₁ : s.Visits u starts₁ now) (h₂ : u.Visits t starts₂ later) (hdisj : ∀ m ∈ now, m ∉ later)
    (horder : ∀ a ∈ now, ∀ b ∈ later, s.parent? a ≠ some b) :
    s.Visits t (fun m => starts₁ m ∨ starts₂ m) (now ++ later) where
  tree := by rw [applyEach_append, ← h₁.tree, h₂.tree]
  nodup := List.nodup_append'.mpr ⟨h₁.nodup, h₂.nodup, fun m hm => hdisj m hm⟩
  parents_first := by
    refine List.pairwise_append.mpr ⟨h₁.parents_first, h₂.parents_first.imp fun {a b} hab => ?_,
      horder⟩
    rwa [h₁.parent? hs] at hab
  mem_iff m := by
    have hnow : ∀ p ∈ now, s.Retexts u p ↔ s.Retexts t p := fun p hp =>
      (retexts_congr rfl (h₂.node?_of_notMem (h₁.sound hs) (hdisj p hp))).symm
    have hlater : ∀ p ∈ later, u.Retexts t p ↔ s.Retexts t p := fun p hp =>
      retexts_congr (h₁.node?_of_notMem hs fun hn => hdisj p hn hp) rfl
    rw [List.mem_append, h₁.mem_iff, h₂.mem_iff, h₁.parent? hs]
    constructor
    · rintro ((hstart | ⟨p, hmem, hp, htext⟩) | hstart | ⟨p, hmem, hp, htext⟩)
      · exact .inl (.inl hstart)
      · exact .inr ⟨p, List.mem_append_left _ hmem, hp, (hnow p hmem).mp htext⟩
      · exact .inl (.inr hstart)
      · exact .inr ⟨p, List.mem_append_right _ hmem, hp, (hlater p hmem).mp htext⟩
    · rintro ((hstart | hstart) | ⟨p, hmem, hp, htext⟩)
      · exact .inl (.inl hstart)
      · exact .inr (.inl hstart)
      · rcases List.mem_append.mp hmem with hmem | hmem
        · exact .inl (.inr ⟨p, hmem, hp, (hnow p hmem).mpr htext⟩)
        · exact .inr (.inr ⟨p, hmem, hp, (hlater p hmem).mpr htext⟩)

/-- What holds of the starts, and of the children of nodes of which it holds, holds of all nodes
that are visited. -/
theorem induction {P : NodeId → Prop} (h : s.Visits t starts nodes) (hs : s.Sound)
    (hstart : ∀ m ∈ nodes, starts m → P m)
    (hchild : ∀ m ∈ nodes, ∀ p, s.parent? m = some p → P p → P m) : ∀ m ∈ nodes, P m := by
  intro m hm
  induction hd : s.shape.depth m using Nat.strongRecOn generalizing m with
  | ind d ih =>
    rcases (h.mem_iff m).mp hm with hs' | ⟨p, hmem, hp, -⟩
    · exact hstart m hm hs'
    · have hless : s.shape.depth p < d := by
        rw [← hd, Forest.depth_of_parent? hs.nodup hp]
        exact Nat.lt_succ_self _
      exact hchild m hm p hp (ih _ hless p hmem rfl)

/-- A parent that is visited is visited before its children. -/
theorem idxOf_lt (h : s.Visits t starts nodes) (hs : s.Sound) {p : NodeId}
    (hp : s.parent? m = some p) (hm : m ∈ nodes) (hmem : p ∈ nodes) :
    nodes.idxOf p < nodes.idxOf m := by
  have hne : m ≠ p := by
    rintro rfl
    have hdepth := Forest.depth_of_parent? hs.nodup hp
    omega
  have hidx : nodes.idxOf m ≠ nodes.idxOf p := fun he => hne ((List.idxOf_inj hm).mp he)
  by_contra hlt
  have hgt : nodes.idxOf m < nodes.idxOf p := by omega
  refine List.pairwise_iff_getElem.mp h.parents_first _ _ (List.idxOf_lt_length_of_mem hm)
    (List.idxOf_lt_length_of_mem hmem) hgt ?_
  rw [List.getElem_idxOf, List.getElem_idxOf]
  exact hp

end Visits

/-! ## Walks -/

theorem mem_toList_of_mem_applyForest {row : Forest NodeId} (h : m ∈ (applyForest row t).2) :
    m ∈ row.toList := by
  induction row generalizing t with
  | nil => exact h
  | tree root beneath beside ihBeneath ihBeside =>
    rw [Forest.mem_toList_tree]
    cases hchanged : (t.apply root).2 with
    | false =>
      rw [applyForest_of_false hchanged, List.mem_cons] at h
      exact h.imp_right fun h => .inr (ihBeside h)
    | true =>
      rw [applyForest_of_true hchanged, List.cons_append, List.mem_cons, List.mem_append] at h
      exact h.imp_right (.imp ihBeneath ihBeside)

/-- A walk down a row of trees visits the roots and what follows from them. -/
theorem visits_applyForest (row : Forest NodeId) (h : t.Sound) (hnd : row.toList.Nodup)
    (hw : t.shape.Within row) :
    t.Visits (applyForest row t).1 (· ∈ row.roots) (applyForest row t).2 := by
  induction row generalizing t with
  | nil => exact .nil fun m => List.not_mem_nil
  | tree root beneath beside ihBeneath ihBeside =>
    obtain ⟨⟨hr₁, hr₂⟩, hnd₁, hnd₂, hdisj⟩ := Forest.nodup_tree_iff.mp hnd
    obtain ⟨hbeneath, hw₁, hw₂⟩ := hw
    have hsound := sound_apply h root
    have hshape := (base_apply h root).shape
    -- the root and what is visited because of it, whether its text style changes or not
    obtain ⟨v, below, hbelow, hfirst, hwalk⟩ : ∃ v below, (∀ m ∈ below, m ∈ beneath.toList) ∧
        t.Visits v (· = root) (root :: below) ∧
        applyForest (.tree root beneath beside) t =
          ((applyForest beside v).1, root :: below ++ (applyForest beside v).2) := by
      cases hchanged : (t.apply root).2 with
      | false =>
        refine ⟨_, [], nofun, .root h (.nil ?_) List.not_mem_nil nofun,
          applyForest_of_false hchanged⟩
        rintro m ⟨htrue, -⟩
        rw [hchanged] at htrue
        cases htrue
      | true =>
        have hsub : ∀ m ∈ (applyForest beneath (t.apply root).1).2, m ∈ beneath.toList :=
          fun m => mem_toList_of_mem_applyForest
        refine ⟨_, _, hsub, .root h ?_ (fun hm => hr₁ (hsub root hm)) ?_,
          applyForest_of_true hchanged⟩
        · have hvisits := ihBeneath hsound hnd₁ (hshape ▸ hw₁)
          refine hvisits.of_starts (fun m hm => ?_) fun m ⟨_, hp⟩ => ?_
          · exact ⟨hchanged, Forest.parent?_of_mem_roots h.nodup hbeneath hm⟩
          · exact (hvisits.mem_iff m).mpr
              (.inl (Forest.mem_roots_of_parent? h.nodup hp hbeneath))
        · intro b hb hp
          exact hr₁ (hw₁.mem_of_parent? h.nodup hp (hsub b hb))
    have hafter := ihBeside (hfirst.sound h) hnd₂ (hfirst.shape h ▸ hw₂)
    have happart : ∀ m ∈ root :: below, m ∉ beside.toList := by
      intro m hm
      rcases List.mem_cons.mp hm with rfl | hm
      · exact hr₂
      · exact hdisj m (hbelow m hm)
    rw [hwalk]
    refine (hfirst.append h hafter ?_ ?_).of_starts ?_ ?_
    · exact fun m hm hlater => happart m hm (mem_toList_of_mem_applyForest hlater)
    · intro a ha b hb hp
      exact happart a ha (hw₂.mem_of_parent? h.nodup hp (mem_toList_of_mem_applyForest hb))
    · exact fun m hm => List.mem_cons.mpr hm
    · intro m hm
      rcases List.mem_cons.mp hm with rfl | hm
      · exact List.mem_append_left _ List.mem_cons_self
      · exact List.mem_append_right _ ((hafter.mem_iff m).mpr (.inl hm))

/-- A turn starts at the node if it waits still. -/
theorem visits_applyWaiting (h : t.Sound) (n : NodeId) :
    t.Visits (t.applyWaiting n).1 (fun m => m = n ∧ t.isScheduled n = true)
      (t.applyWaiting n).2 := by
  unfold applyWaiting
  split
  case isFalse hrests => exact .nil fun m ⟨_, hwaits⟩ => hrests hwaits
  case isTrue hwaits =>
    obtain ⟨node, hnode, -⟩ := exists_of_isScheduled hwaits
    obtain ⟨beneath, -, htree⟩ := Forest.exists_treeAt_eq
      ((h.mem_shape n).mpr (contains_iff.mpr ⟨node, hnode⟩))
    have hroots : (t.shape.treeAt n).roots = [n] := by rw [htree]; rfl
    have hvisits := visits_applyForest (t.shape.treeAt n) h (Forest.nodup_treeAt h.nodup n)
      (Forest.within_treeAt h.nodup n)
    rw [hroots] at hvisits
    refine hvisits.of_starts (fun m hm => ⟨List.mem_singleton.mp hm, hwaits⟩) fun m ⟨hm, _⟩ => ?_
    exact (hvisits.mem_iff m).mpr (.inl (List.mem_singleton.mpr hm))

/-! ## Walks in a row -/

/-- What is visited later, from starts that are not less deep, does not meet what was visited from
an earlier start, nor does it hold the parents of that. -/
theorem Visits.apart_of_depth {now later : List NodeId} {starts₂ : NodeId → Prop} (hs : s.Sound)
    (h₁ : s.Visits u (fun m => m = n ∧ s.isScheduled n = true) now) (h₂ : u.Visits t starts₂ later)
    (hwaits : ∀ m, starts₂ m → u.isScheduled m = true)
    (hdepth : ∀ m, starts₂ m → s.shape.depth n ≤ s.shape.depth m) :
    (∀ m ∈ now, m ∉ later) ∧ ∀ a ∈ now, ∀ b ∈ later, s.parent? a ≠ some b := by
  have hdeep : ∀ m ∈ later, s.shape.depth n ≤ s.shape.depth m := by
    refine h₂.induction (h₁.sound hs) (fun m _ => hdepth m) fun m _ p hp hle => ?_
    rw [h₁.parent? hs] at hp
    rw [Forest.depth_of_parent? hs.nodup hp]
    exact Nat.le_succ_of_le hle
  -- the parent of the first start is less deep than all that comes later
  have hfirst : ∀ p, s.parent? n = some p → p ∉ later := by
    intro p hp hmem
    have hle := hdeep p hmem
    rw [Forest.depth_of_parent? hs.nodup hp] at hle
    exact Nat.not_succ_le_self _ hle
  -- a node is met again only if its parent is, for it does not wait any more
  have hagain : ∀ m ∈ now, m ∈ later → ∃ p ∈ later, s.parent? m = some p := by
    intro m hm hlater
    rcases (h₂.mem_iff m).mp hlater with hstart | ⟨p, hmem, hp, -⟩
    · have hstill := hwaits m hstart
      rw [h₁.tree, isScheduled_applyEach hs] at hstill
      exact absurd hm hstill.2
    · exact ⟨p, hmem, h₁.parent? hs m ▸ hp⟩
  have hdisj : ∀ m ∈ now, m ∉ later := by
    refine h₁.induction hs ?_ ?_
    · rintro m hm ⟨rfl, -⟩ hlater
      obtain ⟨p, hmem, hp⟩ := hagain m hm hlater
      exact hfirst p hp hmem
    · intro m hm q hq hnot hlater
      obtain ⟨p, hmem, hp⟩ := hagain m hm hlater
      cases hp.symm.trans hq
      exact hnot hmem
  refine ⟨hdisj, fun a ha b hb hp => ?_⟩
  rcases (h₁.mem_iff a).mp ha with ⟨rfl, -⟩ | ⟨q, hmem, hq, -⟩
  · exact hfirst b hp hb
  · cases hp.symm.trans hq
    exact hdisj b hmem hb

/-- Walks from nodes that still wait, those that are less deep first, visit all that waited at the
beginning, and what follows from it. -/
theorem visits_applyAll (queue : List NodeId) (h : t.Sound)
    (hsorted : queue.Pairwise fun a b => t.shape.depth a ≤ t.shape.depth b) :
    t.Visits (t.applyAll queue).1 (fun m => m ∈ queue ∧ t.isScheduled m = true)
      (t.applyAll queue).2 := by
  induction queue generalizing t with
  | nil => exact .nil fun m hm => List.not_mem_nil hm.1
  | cons n queue ih =>
    obtain ⟨hfirst, hrest⟩ := List.pairwise_cons.mp hsorted
    have hnow := visits_applyWaiting h n
    have hlater := ih (hnow.sound h) (by rwa [hnow.shape h])
    obtain ⟨hdisj, horder⟩ := hnow.apart_of_depth h hlater (fun m hm => hm.2)
      fun m hm => hfirst m hm.1
    have hvisits := hnow.append h hlater hdisj horder
    refine hvisits.of_starts (fun m hm => ?_) fun m ⟨hm, hwaits⟩ => ?_
    · rcases hm with ⟨rfl, hwaits⟩ | ⟨hm, hwaits⟩
      · exact ⟨List.mem_cons_self, hwaits⟩
      · rw [hnow.tree, isScheduled_applyEach h] at hwaits
        exact ⟨List.mem_cons_of_mem n hm, hwaits.1⟩
    · exact mem_applyAll h (n :: queue) hm hwaits

/-! ## Flushes -/

/-- The nodes whose turn comes in a flush, in order. -/
def turns (t : Tree) (root : NodeId) : List NodeId :=
  ((t.queue.filter t.contains).filter fun n => root ∈ t.shape.path n).mergeSort
    fun a b => t.shape.depth a ≤ t.shape.depth b

/-- The nodes that a flush leaves in the queue. -/
def leftOver (t : Tree) (root : NodeId) : List NodeId :=
  (t.queue.filter t.contains).filter fun n => root ∉ t.shape.path n

/-- A flush gives the nodes within the tree their turns, and leaves the other ones in the queue. -/
theorem flush_eq {root : NodeId} (hroot : t.contains root = true) :
    t.flush root = .ok ({ t with queue := t.leftOver root }.applyAll (t.turns root)) := by
  have hnot : (fun n => !decide (root ∈ t.shape.path n)) =
      fun n => decide (root ∉ t.shape.path n) := by
    funext n
    simp
  rw [flush, hroot, List.partition_eq_filter_filter, turns, leftOver, ← hnot]
  rfl

/-- A flush succeeds on every node. -/
theorem exists_flush {root : NodeId} (hroot : t.contains root = true) :
    ∃ t' applied, t.flush root = .ok (t', applied) :=
  ⟨_, _, flush_eq hroot⟩

/-- A flush of what is not there is refused. -/
theorem flush_of_missing {root : NodeId} (hroot : t.contains root = false) :
    t.flush root = .error (.missing root) := by
  rw [flush, hroot]
  rfl

/-- What has a turn is in the queue, has not been removed, and is in the tree of the root. -/
theorem mem_turns {root : NodeId} :
    m ∈ t.turns root ↔ m ∈ t.queue ∧ t.contains m = true ∧ root ∈ t.shape.path m := by
  simp only [turns, List.mem_mergeSort, List.mem_filter, decide_eq_true_eq, and_assoc]

theorem mem_leftOver {root : NodeId} :
    m ∈ t.leftOver root ↔ m ∈ t.queue ∧ t.contains m = true ∧ root ∉ t.shape.path m := by
  simp only [leftOver, List.mem_filter, decide_eq_true_eq, and_assoc]

/-- The turns come in the order of depth. -/
theorem pairwise_turns (t : Tree) (root : NodeId) :
    (t.turns root).Pairwise fun a b => t.shape.depth a ≤ t.shape.depth b := by
  have htrans : ∀ a b c, decide (t.shape.depth a ≤ t.shape.depth b) = true →
      decide (t.shape.depth b ≤ t.shape.depth c) = true →
      decide (t.shape.depth a ≤ t.shape.depth c) = true := by
    simp only [decide_eq_true_eq]
    exact fun a b c => Nat.le_trans
  have htotal : ∀ a b, (decide (t.shape.depth a ≤ t.shape.depth b) ||
      decide (t.shape.depth b ≤ t.shape.depth a)) = true := by
    simp only [Bool.or_eq_true, decide_eq_true_eq]
    exact fun a b => Nat.le_total _ _
  exact (List.pairwise_mergeSort htrans htotal _).imp of_decide_eq_true

section Flush

variable {t' : Tree} {root : NodeId} {applied : List NodeId}

theorem contains_of_flush (hok : t.flush root = .ok (t', applied)) : t.contains root = true := by
  by_contra hroot
  rw [flush_of_missing (Bool.eq_false_iff.mpr hroot)] at hok
  cases hok

/-- What a flush visits: the nodes whose turn comes, if they wait, and what follows from it. -/
theorem visits_flush (h : t.Sound) (hok : t.flush root = .ok (t', applied)) :
    { t with queue := t.leftOver root }.Visits t'
      (fun m => m ∈ t.turns root ∧ t.isScheduled m = true) applied := by
  have hvisits := visits_applyAll (t.turns root) (h.with_queue (t.leftOver root))
    (t.pairwise_turns root)
  rw [flush_eq (contains_of_flush hok)] at hok
  rw [Except.ok.inj hok] at hvisits
  exact hvisits

/-- What stays in the queue. -/
theorem queue_flush (h : t.Sound) (hok : t.flush root = .ok (t', applied)) :
    t'.queue = t.leftOver root := by
  rw [(visits_flush h hok).tree]
  exact (base_applyEach (h.with_queue _) applied).queue

/-- A flush neither adds nor removes nodes. -/
theorem contains_flush (h : t.Sound) (hok : t.flush root = .ok (t', applied)) (m : NodeId) :
    t'.contains m = t.contains m := by
  rw [Bool.eq_iff_iff, ← (sound_flush h hok).mem_shape, shape_flush h hok, h.mem_shape]

/-- A flush applies nodes beneath its root only. -/
theorem mem_path_of_applied (h : t.Sound) (hok : t.flush root = .ok (t', applied)) :
    ∀ m ∈ applied, root ∈ t.shape.path m := by
  refine (visits_flush h hok).induction (h.with_queue _) ?_ ?_
  · exact fun m _ hm => (mem_turns.mp hm.1).2.2
  · exact fun m _ p hp => Forest.mem_path_of_parent? h.nodup hp

/-- The nodes that a flush applies are those beneath its root that waited before, or whose parent
has been applied and has got another text style. -/
theorem mem_applied_iff (h : t.Sound) (hqueued : t.Queued)
    (hok : t.flush root = .ok (t', applied)) (m : NodeId) :
    m ∈ applied ↔ root ∈ t.shape.path m ∧
      (t.isScheduled m = true ∨ ∃ p ∈ applied, t.parent? m = some p ∧ t.Retexts t' p) := by
  have hvisits := visits_flush h hok
  constructor
  · intro hm
    refine ⟨mem_path_of_applied h hok m hm, ?_⟩
    exact ((hvisits.mem_iff m).mp hm).imp_left And.right
  · rintro ⟨hroot, hwaits | hchild⟩
    · exact mem_applied_of_flush h hqueued hok hwaits hroot
    · exact (hvisits.mem_iff m).mpr (.inr hchild)

/-- A flush that comes right after another one of the same root has nothing to do. -/
theorem flush_flush (h : t.Sound) (hok : t.flush root = .ok (t', applied)) :
    t'.flush root = .ok (t', []) := by
  have hlive : ∀ m ∈ t'.queue, t'.contains m = true ∧ root ∉ t'.shape.path m := by
    intro m hm
    rw [queue_flush h hok, mem_leftOver] at hm
    rw [contains_flush h hok, shape_flush h hok]
    exact hm.2
  have hturns : t'.turns root = [] := by
    rw [List.eq_nil_iff_forall_not_mem]
    intro m hm
    obtain ⟨hmem, -, hroot⟩ := mem_turns.mp hm
    exact (hlive m hmem).2 hroot
  have hleft : t'.leftOver root = t'.queue := by
    rw [leftOver, List.filter_eq_self.mpr fun m hm => (hlive m hm).1, List.filter_eq_self]
    intro m hm
    simpa using (hlive m hm).2
  have hroot : t'.contains root = true := by rw [contains_flush h hok, contains_of_flush hok]
  rw [flush_eq hroot, hturns, hleft]
  rfl

end Flush

end FlexStyle.Tree
