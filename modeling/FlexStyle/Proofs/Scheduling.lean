import FlexStyle.Proofs.Tree.Run

/-!
# Which changes wait for a flush

A write that changes what a node stands for puts the node into the queue, so that the next flush of
a tree above it applies the node. There is one exception. A copy that reports no change does not
schedule its target, although it moves what it copies to the back; if that was not at the back
before, the order of the live entries is another one, and no flush takes notice.

- `Tree.Alters`: whether a node has other live entries, a font of its own or a parent than before.
- `Tree.Overlooks`: the exception, in terms of `Table.Trails`.
- `Tree.Reachable.alteration_waits_iff`: an alteration waits exactly if it is not overlooked; a node
  that waits keeps waiting until a flush applies it, and every flush above it does.
-/

namespace FlexStyle

/-- Whether a command writes to nodes or moves them. -/
def Command.Mutates : Command → Prop
  | create => False
  | removeSubtree _ => False
  | flush _ => False
  | takeDirty => False
  | _ => True

namespace Tree

/-- Whether a node has other live entries in another tree, or in another order, or another font of
its own, or another parent. -/
def Alters (s t : Tree) (n : NodeId) : Prop :=
  ∃ before ∈ s.node? n, ∃ after ∈ t.node? n,
    after.table.liveList ≠ before.table.liveList ∨ after.font ≠ before.font ∨
      t.parent? n ≠ s.parent? n

instance (s t : Tree) (n : NodeId) : Decidable (s.Alters t n) :=
  inferInstanceAs (Decidable (∃ before ∈ s.node? n, ∃ after ∈ t.node? n, _ ∨ _ ∨ _))

/-- Whether a command is a copy to a node that does not wait, reports no change, and yet moves some
of what it copies. -/
def Overlooks (t : Tree) (c : Command) (n : NodeId) : Prop :=
  ∃ source choice node other, c = .copyStyles n source choice ∧
    t.node? n = some node ∧ t.node? source = some other ∧ node.scheduled = false ∧
    (t.copyStyles n source choice).2 = false ∧ ¬ node.table.Trails other.table choice

variable {t : Tree} {n source : NodeId} {node other : Node} {choice : Option Group}

/-- A copy that reports no change replaces the table and does nothing else. -/
theorem copyStyles_of_false (hnode : t.node? n = some node) (hsource : t.node? source = some other)
    (hfalse : (t.copyStyles n source choice).2 = false) :
    (node.table.copyFrom other.table choice).2 = false ∧
      (t.copyStyles n source choice).1 =
        t.modify n fun node' =>
          { node' with table := (node.table.copyFrom other.table choice).1 } := by
  rw [copyStyles, hsource] at hfalse ⊢
  dsimp only at hfalse ⊢
  rw [changeTable, hnode] at hfalse ⊢
  refine ⟨hfalse, ?_⟩
  show (if (node.table.copyFrom other.table choice).2 then _ else _) = _
  rw [show (node.table.copyFrom other.table choice).2 = false from hfalse]
  rfl

theorem copyStyles_of_source_none (hsource : t.node? source = none) :
    (t.copyStyles n source choice).1 = t := by
  rw [copyStyles, hsource]

/-- Only the target of a copy gets another table. -/
theorem node?_copyStyles_of_ne {target : NodeId} (hne : n ≠ target) :
    ((t.copyStyles target source choice).1.node? n) = t.node? n := by
  unfold copyStyles
  split
  · rfl
  · unfold changeTable
    split
    · rfl
    · show (if _ then _ else _ : Tree).node? n = _
      split
      · rw [node?_schedule, if_neg hne, node?_modify, if_neg hne]
      · rw [node?_modify, if_neg hne]

/-- A copy that reports no change keeps the order of a node that it does not overlook. -/
theorem liveList_copyStyles_of_false (h : t.Sound) {target : NodeId} {after : Node}
    (hfalse : (t.copyStyles target source choice).2 = false) (hnode : t.node? n = some node)
    (hafter : (t.copyStyles target source choice).1.node? n = some after)
    (hrests : after.scheduled = false)
    (hseen : ¬ t.Overlooks (.copyStyles target source choice) n) :
    after.table.liveList = node.table.liveList := by
  by_cases hn : n = target
  · subst hn
    cases hsource : t.node? source with
    | none =>
      rw [copyStyles_of_source_none hsource, hnode] at hafter
      cases hafter
      rfl
    | some other =>
      obtain ⟨hcopy, hresult⟩ := copyStyles_of_false hnode hsource hfalse
      rw [hresult, node?_modify, if_pos rfl, hnode] at hafter
      cases hafter
      have htrails : node.table.Trails other.table choice := by
        by_contra hmoved
        exact hseen ⟨source, choice, node, other, rfl, hnode, hsource, hrests, hfalse, hmoved⟩
      exact (Table.liveList_copyFrom_iff (h.tidy hnode).keyed (h.tidy hsource).keyed hcopy).mpr
        htrails
  · rw [node?_copyStyles_of_ne hn, hnode] at hafter
    cases hafter
    rfl

/-- An overlooked copy alters its target, which does not wait afterwards. -/
theorem alters_of_overlooks (h : t.Sound) {c : Command} (hc : t.Overlooks c n) :
    t.Alters (t.after c) n ∧ (t.after c).isScheduled n = false := by
  obtain ⟨source, choice, node, other, rfl, hnode, hsource, hrests, hfalse, hmoved⟩ := hc
  obtain ⟨hcopy, hresult⟩ := copyStyles_of_false hnode hsource hfalse
  have hafter : (t.after (.copyStyles n source choice)).node? n =
      some { node with table := (node.table.copyFrom other.table choice).1 } := by
    show (t.copyStyles n source choice).1.node? n = _
    rw [hresult, node?_modify, if_pos rfl, hnode]
    rfl
  constructor
  · refine ⟨node, hnode, _, hafter, .inl fun hsame => hmoved ?_⟩
    exact (Table.liveList_copyFrom_iff (h.tidy hnode).keyed (h.tidy hsource).keyed hcopy).mp hsame
  · rw [isScheduled_of_node? hafter]
    exact hrests

/-- What is altered and not overlooked waits. -/
theorem isScheduled_of_alters (h : t.Sound) {c : Command} (hc : c.Mutates)
    (halters : t.Alters (t.after c) n) (hseen : ¬ t.Overlooks c n) :
    (t.after c).isScheduled n = true := by
  obtain ⟨before, hbefore, after, hafter, hdiffers⟩ := halters
  rw [Option.mem_def] at hbefore hafter
  rw [isScheduled_of_node? hafter]
  by_contra hrests
  have hrests : after.scheduled = false := by simpa using hrests
  rcases after_cases h c with rfl | ⟨root, applied, rfl, -⟩ | hevolves
  · exact hc
  · exact hc
  · obtain ⟨before', hbefore', hkept⟩ := hevolves.node hafter
    cases hbefore.symm.trans hbefore'
    have horder : after.table.liveList = before.table.liveList := by
      by_cases hreports : t.Reports c
      · exact hkept.order hreports hrests
      · -- only a copy may fail to report
        cases c with
        | copyStyles target source choice =>
          have hfalse : (t.copyStyles target source choice).2 = false := by
            simpa [Reports] using hreports
          exact liveList_copyStyles_of_false h hfalse hbefore hafter hrests hseen
        | _ => exact absurd trivial hreports
    rcases hdiffers with hlist | hfont | hparent
    · exact hlist horder
    · exact hfont (hkept.font hrests)
    · exact hparent (hkept.parent? hrests)

/-- A flush of a root above a node that waits is successful and applies the node. -/
theorem flush_applies (h : t.Sound) (hqueued : t.Queued) {root : NodeId}
    (hwaits : t.isScheduled n = true) (hroot : root ∈ t.shape.path n) :
    ∃ t' applied, t.flush root = .ok (t', applied) ∧ n ∈ applied := by
  have hlive : t.contains root = true := (h.mem_shape root).mp (Forest.mem_of_mem_path hroot)
  cases hok : t.flush root with
  | error e =>
    rw [flush, hlive] at hok
    cases hok
  | ok result => exact ⟨_, _, rfl, mem_applied_of_flush h hqueued hok hwaits hroot⟩

/-- A node that waits does so until a flush applies it, or until it is removed. -/
theorem waits_until (h : t.Sound) (hwaits : t.isScheduled n = true) (d : Command) :
    (t.after d).isScheduled n = true ∨ (t.after d).contains n = false ∨
      ∃ root applied, t.flush root = .ok (t.after d, applied) ∧ n ∈ applied := by
  obtain ⟨node, hnode, hflag⟩ := exists_of_isScheduled hwaits
  rcases after_cases h d with rfl | ⟨root, applied, rfl, hok⟩ | hevolves
  · refine .inl ?_
    have hne : n ≠ t.create.1 := by
      rintro rfl
      rw [node?_create_fst] at hnode
      cases hnode
    show t.create.2.isScheduled n = true
    rw [isScheduled, node?_create, if_neg hne, hnode]
    exact hflag
  · -- a flush that does not apply the node leaves its flag
    by_cases hmem : n ∈ applied
    · exact .inr (.inr ⟨root, applied, hok, hmem⟩)
    · exact .inl ((isScheduled_flush h hok n).mpr ⟨hwaits, hmem⟩)
  · cases hafter : (t.after d).node? n with
    | none => exact .inr (.inl (by rw [contains, hafter]; rfl))
    | some after =>
      obtain ⟨before, hbefore, hkept⟩ := hevolves.node hafter
      cases hnode.symm.trans hbefore
      refine .inl ?_
      rw [isScheduled_of_node? hafter]
      exact hkept.waits hflag

/-- **Alterations wait for a flush**, if and only if they are not overlooked. A node that waits does
so until it is applied or removed, and a flush of any root above it applies it. -/
theorem Reachable.alteration_waits_iff (h : Reachable AnyCommand t) {c : Command} (hc : c.Mutates)
    (n : NodeId) :
    ((t.Alters (t.after c) n → (t.after c).isScheduled n = true) ↔ ¬ t.Overlooks c n) ∧
      ((t.after c).isScheduled n = true →
        (∀ root ∈ (t.after c).shape.path n, ∃ t' applied,
          (t.after c).flush root = .ok (t', applied) ∧ n ∈ applied) ∧
        ∀ d, ((t.after c).after d).isScheduled n = true ∨
          ((t.after c).after d).contains n = false ∨
          ∃ root applied,
            (t.after c).flush root = .ok ((t.after c).after d, applied) ∧ n ∈ applied) := by
  have hnext : Reachable AnyCommand (t.after c) := h.step trivial
  constructor
  · constructor
    · intro hwaits hoverlooks
      obtain ⟨halters, hrests⟩ := alters_of_overlooks h.sound hoverlooks
      rw [hwaits halters] at hrests
      cases hrests
    · intro hseen halters
      exact isScheduled_of_alters h.sound hc halters hseen
  · intro hwaits
    constructor
    · intro root hroot
      exact flush_applies hnext.sound hnext.queued hwaits hroot
    · intro d
      exact waits_until hnext.sound hwaits d

/-- A new node that is given a margin waits. -/
theorem alteration_waits_margin :
    let t := (withFont .default (.ofHost .default fun _ => .fixed 16) .builtIn).after .create
    let c : Command := .set ⟨0⟩ .inline "margin" [.value (.pixels 1)]
    t.Alters (t.after c) ⟨0⟩ ∧ ¬ t.Overlooks c ⟨0⟩ ∧ (t.after c).isScheduled ⟨0⟩ = true := by
  intro t c
  have hreach : Reachable AnyCommand t := (Reachable.start _ _ _).step trivial
  have hseen : ¬ t.Overlooks c ⟨0⟩ := by
    rintro ⟨source, choice, node, other, hcopy, -⟩
    exact Command.noConfusion hcopy
  have hmutates : c.Mutates := trivial
  have halters : t.Alters (t.after c) ⟨0⟩ := by decide +kernel
  exact ⟨halters, hseen, (hreach.alteration_waits_iff hmutates ⟨0⟩).1.mpr hseen halters⟩

/-- Not every alteration waits: a copy of a margin to a node that has the same margin, and a left
margin on top of it, puts the margin on top and goes unnoticed. -/
theorem not_every_alteration_waits :
    ¬ ∀ t, Reachable AnyCommand t → ∀ c : Command, c.Mutates → ∀ n,
      t.Alters (t.after c) n → (t.after c).isScheduled n = true := by
  intro hall
  let t := (withFont .default (.ofHost .default fun _ => .fixed 16) .builtIn).run
    [.create, .create, .set ⟨0⟩ .inline "margin" [.value (.pixels 1)],
      .set ⟨0⟩ .inline "margin-left" [.value (.pixels 2)], .flush ⟨0⟩,
      .set ⟨1⟩ .inline "margin" [.value (.pixels 1)]]
  have hreach : Reachable AnyCommand t := (Reachable.start _ _ _).run _
  have hmutates : (Command.copyStyles ⟨0⟩ ⟨1⟩ none).Mutates := trivial
  have halters : t.Alters (t.after (.copyStyles ⟨0⟩ ⟨1⟩ none)) ⟨0⟩ := by decide +kernel
  have hrests : (t.after (.copyStyles ⟨0⟩ ⟨1⟩ none)).isScheduled ⟨0⟩ = false := by decide +kernel
  rw [hall t hreach _ hmutates ⟨0⟩ halters] at hrests
  cases hrests

end Tree

end FlexStyle
