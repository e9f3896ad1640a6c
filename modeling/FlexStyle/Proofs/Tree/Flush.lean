import FlexStyle.Proofs.Tree.Structure
import FlexStyle.Tree.Flush

/-!
# Flushes, one application at a time

A flush is a sequence of applications, and what it does follows from what one application does: it
gives one node a new text style and its box a new record, and ends its wait.

- `Tree.Applied`: the tree after one application; `Tree.apply_cases` says that there are no others.
- `Tree.applyEach`: applications in a row; `Tree.applyAll_fst` says that a flush is one.
- `Tree.flush_induction`: what every application keeps, a flush keeps.
- `Tree.mem_applied_of_flush`, `Tree.flush_rests`: a flush applies every node that waits beneath its
  root, and no such node waits afterwards.
-/

namespace FlexStyle

/-- A node as an application leaves it. -/
def Node.settled (node : Node) (text : TextStyle) : Node :=
  { node with table := node.table.clearEvents, text, scheduled := false }

namespace Tree

/-- The text style that an application finds for a node. -/
def foundText (t : Tree) (n : NodeId) (node : Node) : TextStyle :=
  (node.table.applyText t.fonts (t.inherited n) (node.font.getD (t.inherited n).font)).1

/-- The record that an application finds for the box of a node, from the one it has. -/
def foundStyle (t : Tree) (n : NodeId) (node : Node) (style : BoxStyle) : BoxStyle :=
  (node.table.applyBox ((t.foundText n node).metrics t.fonts) t.store.initial style).1

/-- What no application touches. -/
structure SameBase (s t : Tree) : Prop where
  config : t.config = s.config
  fonts : t.fonts = s.fonts
  rootText : t.rootText = s.rootText
  shape : t.shape = s.shape
  queue : t.queue = s.queue
  initial : t.store.initial = s.store.initial

/-- A tree after the application of a node whose box had the record `style`. -/
structure Applied (s t : Tree) (n : NodeId) (node : Node) (style : BoxStyle) : Prop where
  base : s.SameBase t
  exact : s.store.Exact → t.store.Exact
  node? : ∀ m, t.node? m =
    if m = n then some (node.settled (s.foundText n node)) else s.node? m
  style? : ∀ id, t.store.style? id =
    if id = node.box then some (s.foundStyle n node style) else s.store.style? id

variable {r s t t' : Tree} {n m : NodeId} {node : Node} {style : BoxStyle}

theorem SameBase.refl (t : Tree) : t.SameBase t := ⟨rfl, rfl, rfl, rfl, rfl, rfl⟩

/-- What two changes in turn leave alone is left alone. -/
theorem SameBase.trans (h₁ : r.SameBase s) (h₂ : s.SameBase t) : r.SameBase t :=
  ⟨h₂.config.trans h₁.config, h₂.fonts.trans h₁.fonts, h₂.rootText.trans h₁.rootText,
    h₂.shape.trans h₁.shape, h₂.queue.trans h₁.queue, h₂.initial.trans h₁.initial⟩

/-! ## One application -/

/-- Nothing is applied where there is no node. -/
theorem apply_of_none (h : t.node? n = none) : t.apply n = (t, false) := by
  rw [apply, h]

/-- What application does to a node with a box, and when it reports another text style. -/
theorem apply_of_some (hnode : t.node? n = some node)
    (hstyle : t.store.style? node.box = some style) :
    t.Applied (t.apply n).1 n node style ∧
      ((t.apply n).2 = true ↔ node.text ≠ t.foundText n node) := by
  obtain ⟨changed, happly⟩ : ∃ changed, t.apply n =
      { t with store := t.store.write node.box (t.foundStyle n node style) changed }.settle n
        (t.foundText n node) := by
    rw [apply, hnode]
    dsimp only
    rw [hstyle]
    exact ⟨_, rfl⟩
  rw [happly]
  constructor
  · refine ⟨⟨rfl, rfl, rfl, rfl, rfl, rfl⟩, fun h => BoxStore.exact_write h _ _ _, ?_, ?_⟩
    · intro m
      unfold settle
      rw [node?_modify]
      split
      case isTrue hm =>
        subst hm
        show (t.node? m).map _ = _
        rw [hnode]
        rfl
      case isFalse => rfl
    · intro id
      show (t.store.write node.box _ changed).style? id = _
      rw [BoxStore.style?_write]
      split
      case isTrue hid =>
        rw [hid, hstyle]
        rfl
      case isFalse => rfl
  · show ((t.node? n).any fun node => node.text ≠ t.foundText n _) = true ↔ _
    rw [hnode]
    simp

/-- An application finds no node, or it is one of the kind above. -/
theorem apply_cases (h : t.Sound) (n : NodeId) :
    (t.node? n = none ∧ t.apply n = (t, false)) ∨
      ∃ node style, t.node? n = some node ∧ t.store.style? node.box = some style ∧
        t.Applied (t.apply n).1 n node style ∧
        ((t.apply n).2 = true ↔ node.text ≠ t.foundText n node) := by
  cases hnode : t.node? n with
  | none => exact .inl ⟨rfl, apply_of_none hnode⟩
  | some node =>
    obtain ⟨style, hstyle⟩ := h.housed hnode
    exact .inr ⟨node, style, rfl, hstyle, apply_of_some hnode hstyle⟩

/-- A node after an application is the one that was there, but for what is settled. -/
theorem Applied.node_cases (ha : s.Applied t n node style) {after : Node}
    (h : t.node? m = some after) :
    (m = n ∧ after = node.settled (s.foundText n node)) ∨ (m ≠ n ∧ s.node? m = some after) := by
  rw [ha.node?] at h
  split at h
  case isTrue hm =>
    cases h
    exact .inl ⟨hm, rfl⟩
  case isFalse hm => exact .inr ⟨hm, h⟩

/-- Application keeps a tree sound. -/
theorem Applied.sound (ha : s.Applied t n node style) (h : s.Sound)
    (hnode : s.node? n = some node) : t.Sound where
  nodup := by
    rw [ha.base.shape]
    exact h.nodup
  mem_shape m := by
    rw [ha.base.shape, h.mem_shape, contains, contains, ha.node?]
    split
    case isTrue hm => simp [hm, hnode]
    case isFalse => rfl
  exact := ha.exact h.exact
  initial := by rw [ha.base.initial, h.initial, ha.base.config]
  housed := by
    intro m after hafter
    rw [ha.style?]
    split
    case isTrue => exact ⟨_, rfl⟩
    case isFalse hbox =>
      rcases ha.node_cases hafter with ⟨-, rfl⟩ | ⟨-, hbefore⟩
      · exact absurd rfl hbox
      · exact h.housed hbefore
  apart := by
    intro m m' after after' hafter hafter' hbox
    rcases ha.node_cases hafter with ⟨rfl, rfl⟩ | ⟨-, hbefore⟩ <;>
      rcases ha.node_cases hafter' with ⟨rfl, rfl⟩ | ⟨-, hbefore'⟩
    · rfl
    · exact h.apart hnode hbefore' hbox
    · exact h.apart hbefore hnode hbox
    · exact h.apart hbefore hbefore' hbox
  tidy := by
    intro m after hafter
    rcases ha.node_cases hafter with ⟨-, rfl⟩ | ⟨-, hbefore⟩
    · exact Table.tidy_clearEvents (h.tidy hnode)
    · exact h.tidy hbefore

theorem sound_apply (h : t.Sound) (n : NodeId) : (t.apply n).1.Sound := by
  rcases apply_cases h n with ⟨-, hsame⟩ | ⟨node, style, hnode, -, ha, -⟩
  · rw [hsame]
    exact h
  · exact ha.sound h hnode

theorem base_apply (h : t.Sound) (n : NodeId) : t.SameBase (t.apply n).1 := by
  rcases apply_cases h n with ⟨-, hsame⟩ | ⟨node, style, -, -, ha, -⟩
  · rw [hsame]
    exact .refl t
  · exact ha.base

/-- An application ends one wait and starts none. -/
theorem isScheduled_apply (h : t.Sound) (n m : NodeId) :
    (t.apply n).1.isScheduled m = true ↔ t.isScheduled m = true ∧ m ≠ n := by
  rcases apply_cases h n with ⟨hnone, hsame⟩ | ⟨node, style, -, -, ha, -⟩
  · rw [hsame]
    refine ⟨fun hm => ⟨hm, ?_⟩, And.left⟩
    rintro rfl
    rw [isScheduled, hnone] at hm
    cases hm
  · rw [isScheduled, ha.node?, isScheduled]
    split
    case isTrue hm => simp [hm, Node.settled]
    case isFalse hm => simp [hm]

/-- Applications take no notice of the queue. -/
theorem apply_with_queue (t : Tree) (queue : List NodeId) (n : NodeId) :
    { t with queue }.apply n = ({ (t.apply n).1 with queue }, (t.apply n).2) := by
  have hnode : { t with queue }.node? n = t.node? n := rfl
  rw [apply, apply, hnode]
  cases t.node? n with
  | none => rfl
  | some node =>
    dsimp only
    cases t.store.style? node.box with
    | none => rfl
    | some style => rfl

/-! ## Applications in a row -/

/-- The applications of nodes, one after another. -/
def applyEach (t : Tree) (nodes : List NodeId) : Tree := nodes.foldl (fun t n => (t.apply n).1) t

theorem applyEach_cons (t : Tree) (n : NodeId) (nodes : List NodeId) :
    t.applyEach (n :: nodes) = (t.apply n).1.applyEach nodes := rfl

theorem applyEach_append (t : Tree) (nodes more : List NodeId) :
    t.applyEach (nodes ++ more) = (t.applyEach nodes).applyEach more := List.foldl_append

section Forest

variable {root : NodeId} {beneath beside : Forest NodeId}

/-- Where the text style of the root stays the same, nothing beneath it is applied. -/
theorem applyForest_of_false (h : (t.apply root).2 = false) :
    applyForest (.tree root beneath beside) t =
      ((applyForest beside (t.apply root).1).1,
        root :: (applyForest beside (t.apply root).1).2) := by
  rw [applyForest]
  rcases happly : t.apply root with ⟨applied, changed⟩
  rw [happly] at h
  rw [show changed = _ from h]
  rfl

/-- Where the text style of the root changes, what is beneath it is applied next. -/
theorem applyForest_of_true (h : (t.apply root).2 = true) :
    applyForest (.tree root beneath beside) t =
      ((applyForest beside (applyForest beneath (t.apply root).1).1).1,
        root :: (applyForest beneath (t.apply root).1).2 ++
          (applyForest beside (applyForest beneath (t.apply root).1).1).2) := by
  rw [applyForest]
  rcases happly : t.apply root with ⟨applied, changed⟩
  rw [happly] at h
  rw [show changed = _ from h]
  rfl

end Forest

/-- A walk does no more than to apply the nodes that it lists. -/
theorem applyForest_fst (row : Forest NodeId) (t : Tree) :
    (applyForest row t).1 = t.applyEach (applyForest row t).2 := by
  induction row generalizing t with
  | nil => rfl
  | tree root beneath beside ihBeneath ihBeside =>
    cases hchanged : (t.apply root).2 with
    | false =>
      rw [applyForest_of_false hchanged, applyEach_cons]
      exact ihBeside _
    | true =>
      rw [applyForest_of_true hchanged, List.cons_append, applyEach_cons, applyEach_append,
        ← ihBeneath]
      exact ihBeside _

theorem applyWaiting_fst (t : Tree) (n : NodeId) :
    (t.applyWaiting n).1 = t.applyEach (t.applyWaiting n).2 := by
  unfold applyWaiting
  split
  · exact applyForest_fst _ t
  · rfl

theorem applyAll_fst (t : Tree) (queue : List NodeId) :
    (t.applyAll queue).1 = t.applyEach (t.applyAll queue).2 := by
  induction queue generalizing t with
  | nil => rfl
  | cons n queue ih =>
    show ((t.applyWaiting n).1.applyAll queue).1 =
      t.applyEach ((t.applyWaiting n).2 ++ ((t.applyWaiting n).1.applyAll queue).2)
    rw [applyEach_append, ← applyWaiting_fst]
    exact ih _

/-- What every application keeps holds after all of them. -/
theorem applyEach_induction {P : Tree → Prop} (hstep : ∀ t n, t.Sound → P t → P (t.apply n).1)
    (h : t.Sound) (hP : P t) (nodes : List NodeId) :
    (t.applyEach nodes).Sound ∧ P (t.applyEach nodes) := by
  induction nodes generalizing t with
  | nil => exact ⟨h, hP⟩
  | cons n nodes ih => exact ih (sound_apply h n) (hstep t n h hP)

theorem sound_applyEach (h : t.Sound) (nodes : List NodeId) : (t.applyEach nodes).Sound :=
  (applyEach_induction (P := fun _ => True) (fun _ _ _ _ => trivial) h trivial nodes).1

theorem base_applyEach (h : t.Sound) (nodes : List NodeId) : t.SameBase (t.applyEach nodes) :=
  (applyEach_induction (P := t.SameBase) (fun _ n hs hbase => hbase.trans (base_apply hs n)) h
    (.refl t) nodes).2

/-- The nodes that have been applied do not wait any more, and the others as before. -/
theorem isScheduled_applyEach (h : t.Sound) (nodes : List NodeId) (m : NodeId) :
    (t.applyEach nodes).isScheduled m = true ↔ t.isScheduled m = true ∧ m ∉ nodes := by
  induction nodes generalizing t with
  | nil => simp [applyEach]
  | cons n nodes ih =>
    rw [applyEach_cons, ih (sound_apply h n), isScheduled_apply h, List.mem_cons, not_or, and_assoc]

/-! ## The nodes that a flush applies -/

/-- A node that waits when its turn comes is applied. -/
theorem mem_applyWaiting (h : t.Sound) (hn : t.isScheduled n = true) :
    n ∈ (t.applyWaiting n).2 := by
  have hlive : t.contains n = true := by
    obtain ⟨node, hnode, -⟩ := exists_of_isScheduled hn
    exact contains_iff.mpr ⟨node, hnode⟩
  obtain ⟨beneath, -, htree⟩ := Forest.exists_treeAt_eq ((h.mem_shape n).mpr hlive)
  rw [applyWaiting, if_pos hn, htree, applyForest]
  exact List.mem_append_left _ List.mem_cons_self

/-- A node of the queue that waits is applied, in its own turn or before. -/
theorem mem_applyAll (h : t.Sound) (queue : List NodeId) (hm : m ∈ queue)
    (hwaits : t.isScheduled m = true) : m ∈ (t.applyAll queue).2 := by
  induction queue generalizing t with
  | nil => cases hm
  | cons n queue ih =>
    show m ∈ (t.applyWaiting n).2 ++ ((t.applyWaiting n).1.applyAll queue).2
    rw [List.mem_append]
    by_cases hnow : m ∈ (t.applyWaiting n).2
    · exact .inl hnow
    · -- it still waits after the turn of another node
      have hsound : (t.applyWaiting n).1.Sound := by
        rw [applyWaiting_fst]
        exact sound_applyEach h _
      have hstill : (t.applyWaiting n).1.isScheduled m = true := by
        rw [applyWaiting_fst, isScheduled_applyEach h]
        exact ⟨hwaits, hnow⟩
      have hmn : m ≠ n := by
        rintro rfl
        exact hnow (mem_applyWaiting h hwaits)
      exact .inr (ih hsound ((List.mem_cons.mp hm).resolve_left hmn) hstill)

/-! ## Flushes -/

theorem Sound.with_queue (h : t.Sound) (queue : List NodeId) : { t with queue }.Sound :=
  ⟨h.nodup, h.mem_shape, h.exact, h.initial, h.housed, h.apart, h.tidy⟩

/-- What a flush works through, and what it leaves in the queue. -/
theorem flush_ok {root : NodeId} {applied : List NodeId} (h : t.flush root = .ok (t', applied)) :
    ∃ inside outside, { t with queue := outside }.applyAll inside = (t', applied) ∧
      (∀ m, m ∈ inside ↔ m ∈ t.queue ∧ t.contains m = true ∧ root ∈ t.shape.path m) ∧
      (∀ m, m ∈ outside ↔ m ∈ t.queue ∧ t.contains m = true ∧ root ∉ t.shape.path m) := by
  unfold flush at h
  split at h
  · cases h
  · rw [List.partition_eq_filter_filter] at h
    refine ⟨_, _, Except.ok.inj h, fun m => ?_, fun m => ?_⟩
    · simp only [List.mem_mergeSort, List.mem_filter, decide_eq_true_eq, and_assoc]
    · simp only [List.mem_filter, Function.comp_apply, Bool.not_eq_true', decide_eq_false_iff_not,
        and_assoc]

section Flush

variable {root : NodeId} {applied : List NodeId}

/-- A flush does no more than to apply the nodes that it lists, but for the queue. -/
theorem flush_eq_applyEach (h : t.flush root = .ok (t', applied)) :
    ∃ queue, t' = { t with queue }.applyEach applied := by
  obtain ⟨inside, outside, hall, -, -⟩ := flush_ok h
  have hfst := applyAll_fst { t with queue := outside } inside
  rw [hall] at hfst
  exact ⟨outside, hfst⟩

/-- What every application keeps, a flush keeps. -/
theorem flush_induction {P : Tree → Prop} (hqueue : ∀ t queue, P t → P { t with queue })
    (hstep : ∀ t n, t.Sound → P t → P (t.apply n).1) (h : t.Sound) (hP : P t)
    (hok : t.flush root = .ok (t', applied)) : P t' := by
  obtain ⟨queue, rfl⟩ := flush_eq_applyEach hok
  exact (applyEach_induction hstep (h.with_queue queue) (hqueue t queue hP) applied).2

theorem sound_flush (h : t.Sound) (hok : t.flush root = .ok (t', applied)) : t'.Sound := by
  obtain ⟨queue, rfl⟩ := flush_eq_applyEach hok
  exact sound_applyEach (h.with_queue queue) applied

/-- A flush touches no more than its applications do, but for the queue. -/
theorem base_flush (h : t.Sound) (hok : t.flush root = .ok (t', applied)) :
    { t with queue := t'.queue }.SameBase t' := by
  obtain ⟨queue, rfl⟩ := flush_eq_applyEach hok
  have hbase := base_applyEach (h.with_queue queue) applied
  rw [hbase.queue]
  exact hbase

theorem shape_flush (h : t.Sound) (hok : t.flush root = .ok (t', applied)) :
    t'.shape = t.shape :=
  (base_flush h hok).shape

/-- The nodes that wait after a flush are those that it has not applied. -/
theorem isScheduled_flush (h : t.Sound) (hok : t.flush root = .ok (t', applied)) (m : NodeId) :
    t'.isScheduled m = true ↔ t.isScheduled m = true ∧ m ∉ applied := by
  obtain ⟨queue, rfl⟩ := flush_eq_applyEach hok
  exact isScheduled_applyEach (h.with_queue queue) applied m

/-- A flush applies every node that waits beneath its root. -/
theorem mem_applied_of_flush (h : t.Sound) (hqueued : t.Queued)
    (hok : t.flush root = .ok (t', applied)) (hwaits : t.isScheduled m = true)
    (hroot : root ∈ t.shape.path m) : m ∈ applied := by
  obtain ⟨inside, outside, hall, hinside, -⟩ := flush_ok hok
  obtain ⟨node, hnode, -⟩ := exists_of_isScheduled hwaits
  have hmem : m ∈ inside :=
    (hinside m).mpr ⟨hqueued m hwaits, contains_iff.mpr ⟨node, hnode⟩, hroot⟩
  have happlied := mem_applyAll (h.with_queue outside) inside hmem hwaits
  rwa [hall] at happlied

/-- After a flush, no node beneath its root waits. -/
theorem flush_rests (h : t.Sound) (hqueued : t.Queued) (hok : t.flush root = .ok (t', applied))
    (hroot : root ∈ t'.shape.path m) : t'.isScheduled m = false := by
  rw [shape_flush h hok] at hroot
  by_contra hwaits
  obtain ⟨hbefore, hnot⟩ := (isScheduled_flush h hok m).mp (by simpa using hwaits)
  exact hnot (mem_applied_of_flush h hqueued hok hbefore hroot)

/-- The nodes that wait after a flush are in the queue. -/
theorem queued_flush (h : t.Sound) (hqueued : t.Queued)
    (hok : t.flush root = .ok (t', applied)) : t'.Queued := by
  obtain ⟨inside, outside, hall, -, houtside⟩ := flush_ok hok
  have hqueue : t'.queue = outside := by
    have hfst := applyAll_fst { t with queue := outside } inside
    rw [hall] at hfst
    rw [show t' = _ from hfst]
    exact (base_applyEach (h.with_queue outside) applied).queue
  intro m hm
  -- a node that still waits is not beneath the root, for otherwise it would have been applied
  obtain ⟨hbefore, hnot⟩ := (isScheduled_flush h hok m).mp hm
  obtain ⟨node, hnode, -⟩ := exists_of_isScheduled hbefore
  rw [hqueue, houtside]
  refine ⟨hqueued m hbefore, contains_iff.mpr ⟨node, hnode⟩, fun hroot => ?_⟩
  exact hnot (mem_applied_of_flush h hqueued hok hbefore hroot)

end Flush

end Tree

end FlexStyle
