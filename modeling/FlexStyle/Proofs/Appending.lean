import FlexStyle.Proofs.Forest.Children
import FlexStyle.Proofs.Tree.Run

/-!
# Moving nodes

A node is moved in two steps. It is taken out of its place, and then put into the new one, which is
refused where it would lead to a cycle. If that happened after the first step, the node would have
lost its old place and have no new one; the checks that come before both steps exclude it, so that
a node is moved as a whole or not at all.

- `Forest.unlink`, `Forest.link?`: the two steps, and `Forest.link?_unlink`: the second one does not
  fail after the first one.
- `Tree.appendInSteps`, `Tree.appendInSteps_eq`: a move in steps, which is `Tree.append`.
- `Tree.Moves`: what a tree looks like after a node was moved.
- `Tree.Reachable.append_whole`: no cycles, when a move fails, and what it does.
-/

namespace FlexStyle

/-! ## The two steps -/

namespace Forest

variable {α : Type} [DecidableEq α] {f : Forest α} {parent child : α}

/-- Makes a name, with all that is beneath it, a tree of its own. -/
def unlink (f : Forest α) (a : α) : Forest α := f.prune a ++ f.treeAt a

/-- Takes a name from where it is, with all that is beneath it, and puts it after the children of
another one. Names that do not occur are refused, and so is a name that is the other one or above
it. -/
def link? (f : Forest α) (parent child : α) : Option (Forest α) :=
  if parent ∈ f.toList ∧ child ∈ f.toList ∧ child ∉ f.path parent then
    some ((f.prune child).graft parent (f.treeAt child))
  else none

omit [DecidableEq α] in
theorem append_nil (f : Forest α) : f ++ nil = f := by
  induction f with
  | nil => rfl
  | tree root beneath beside _ ih => rw [tree_append, ih]

theorem prune_append_of_notMem {g : Forest α} {a : α} (h : a ∉ f.toList) :
    (f ++ g).prune a = f ++ g.prune a := by
  induction f with
  | nil => rfl
  | tree root beneath beside _ ih =>
    rw [mem_toList_tree, not_or, not_or] at h
    obtain ⟨hroot, hbeneath, hbeside⟩ := h
    rw [tree_append, prune, if_neg (Ne.symm hroot), prune_of_notMem hbeneath, ih hbeside,
      tree_append]

theorem treeAt_append_of_notMem {g : Forest α} {a : α} (h : a ∉ f.toList) :
    (f ++ g).treeAt a = g.treeAt a := by
  rw [treeAt, beneath?_append, beneath?_eq_none_iff.mpr h, Option.none_or, treeAt]

/-- A tree that has been taken out is put back without failure wherever it may be. -/
theorem link?_unlink (hnd : f.toList.Nodup) (hparent : parent ∈ f.toList)
    (hchild : child ∈ f.toList) (h : child ∉ f.path parent) :
    (f.unlink child).link? parent child =
      some ((f.prune child).graft parent (f.treeAt child)) := by
  have hout : parent ∉ (f.treeAt child).toList := fun hm => h ((mem_path_iff hnd).mpr hm)
  have hin : parent ∈ (f.prune child).toList := (mem_prune_iff hnd).mpr ⟨hparent, hout⟩
  have hself := mem_treeAt_self hchild
  have hgone : child ∉ (f.prune child).toList := fun hm => notMem_treeAt_of_prune hnd hm hself
  obtain ⟨beneath, -, htree⟩ := exists_treeAt_eq hchild
  -- the name is found in the tree alone, and the place for it where it was before
  have hmem : parent ∈ (f.unlink child).toList ∧ child ∈ (f.unlink child).toList := by
    rw [unlink, toList_append]
    exact ⟨List.mem_append_left _ hin, List.mem_append_right _ hself⟩
  have hpath : child ∉ (f.unlink child).path parent := by
    rwa [unlink, path_append_of_mem _ hin, path, path?_prune hnd hout, ← path]
  have hprune : (f.unlink child).prune child = f.prune child := by
    rw [unlink, prune_append_of_notMem hgone, htree, prune, if_pos rfl, append_nil]
  have htreeAt : (f.unlink child).treeAt child = f.treeAt child := by
    rw [unlink, treeAt_append_of_notMem hgone, htree, treeAt_root]
  rw [link?, if_pos ⟨hmem.1, hmem.2, hpath⟩, hprune, htreeAt]

end Forest

namespace Tree

variable {t t' : Tree} {parent child : NodeId}

/-- Moves a node in steps, and tells whether it got to its new place. What the second step refuses
stays where the first one has left it. -/
def appendInSteps (t : Tree) (parent child : NodeId) : Tree × Bool :=
  if !t.contains parent || !t.contains child || child ∈ t.shape.path parent then (t, false)
  else
    let unlinked := t.shape.unlink child
    match unlinked.link? parent child with
    | none => ({ t with shape := unlinked }, false)
    | some shape => ({ t with shape }.schedule child, true)

/-! ## Success and failure -/

theorem append_of_fits (hparent : t.contains parent = true) (hchild : t.contains child = true)
    (h : child ∉ t.shape.path parent) :
    t.append parent child = .ok ({ t with
      shape := (t.shape.prune child).graft parent (t.shape.treeAt child) }.schedule child) := by
  rw [append, hparent, hchild, if_neg h]
  rfl

/-- When a move fails. -/
theorem append_eq_error_iff : (∃ e, t.append parent child = .error e) ↔
    t.contains parent = false ∨ t.contains child = false ∨ child ∈ t.shape.path parent := by
  unfold append
  cases t.contains parent
  · simp
  · cases t.contains child
    · simp
    · by_cases hpath : child ∈ t.shape.path parent <;> simp [hpath]

/-- The steps of a move do not stop half-way: a move that fails has not begun. -/
theorem appendInSteps_eq (h : t.Sound) (parent child : NodeId) :
    t.appendInSteps parent child =
      match t.append parent child with
      | .ok t' => (t', true)
      | .error _ => (t, false) := by
  by_cases hfails : ∃ e, t.append parent child = .error e
  · obtain ⟨e, he⟩ := hfails
    have hchecked := append_eq_error_iff.mp ⟨e, he⟩
    rw [he, appendInSteps, if_pos]
    rcases hchecked with hp | hc | hm <;> simp [*]
  · have hchecked := mt append_eq_error_iff.mpr hfails
    simp only [not_or, Bool.not_eq_false] at hchecked
    obtain ⟨hparent, hchild, hpath⟩ := hchecked
    have hlinked := Forest.link?_unlink h.nodup ((h.mem_shape parent).mpr hparent)
      ((h.mem_shape child).mpr hchild) hpath
    rw [append_of_fits hparent hchild hpath, appendInSteps, if_neg (by simp [*])]
    simp only [hlinked]

/-! ## The tree after a move -/

/-- What a tree looks like after `child` was moved beneath `parent`. -/
structure Moves (t : Tree) (parent child : NodeId) (t' : Tree) : Prop where
  /-- The node is the last child of its new parent. -/
  last : t'.shape.children parent = (t.shape.children parent).filter (· ≠ child) ++ [child]
  /-- All other children are as they were, and in the same order. -/
  children : ∀ n, n ≠ parent → t'.shape.children n = (t.shape.children n).filter (· ≠ child)
  parent : t'.parent? child = some parent
  parents : ∀ n, n ≠ child → t'.parent? n = t.parent? n
  /-- What is beneath the node has moved with it. -/
  subtree : t'.shape.treeAt child = t.shape.treeAt child
  scheduled : t'.isScheduled child = true
  /-- Apart from the flag of the node, nothing else has changed. -/
  node : t'.node? child = (t.node? child).map fun node => { node with scheduled := true }
  nodes : ∀ n, n ≠ child → t'.node? n = t.node? n
  store : t'.store = t.store

theorem moves_append (h : t.Sound) (hok : t.append parent child = .ok t') :
    t.Moves parent child t' := by
  have hfits : ¬ ∃ e, t.append parent child = .error e := by
    rintro ⟨e, he⟩
    cases hok.symm.trans he
  have hchecked := mt append_eq_error_iff.mpr hfits
  simp only [not_or, Bool.not_eq_false] at hchecked
  obtain ⟨hparent, hchild, hpath⟩ := hchecked
  have hmem := (h.mem_shape child).mpr hchild
  have hin : parent ∈ (t.shape.prune child).toList := by
    rw [Forest.mem_prune_iff h.nodup, ← Forest.mem_path_iff h.nodup]
    exact ⟨(h.mem_shape parent).mpr hparent, hpath⟩
  rw [append_of_fits hparent hchild hpath] at hok
  cases hok
  -- scheduling the node leaves the shape and the boxes alone
  generalize hmoved : (t.shape.prune child).graft parent (t.shape.treeAt child) = shape
  have hsame := schedule_same { t with shape } child
  have hnode : ∀ n, ({ t with shape }.schedule child).node? n =
      if n = child then (t.node? n).map fun node => { node with scheduled := true }
      else t.node? n := node?_schedule { t with shape } child
  refine ⟨?_, fun n hn => ?_, ?_, fun n hn => ?_, ?_, ?_, ?_, fun n hn => ?_, hsame.store⟩
  · rw [hsame.shape, ← hmoved]
    exact Forest.children_moved_self h.nodup hin hmem
  · rw [hsame.shape, ← hmoved]
    exact Forest.children_moved_of_ne h.nodup hin hn
  · rw [parent?, hsame.shape, ← hmoved]
    exact Forest.parent?_graft_self h.nodup hin hmem
  · rw [parent?, hsame.shape, ← hmoved]
    exact Forest.parent?_graft_of_ne h.nodup hin hn
  · rw [hsame.shape, ← hmoved]
    exact Forest.treeAt_moved h.nodup hin (Forest.mem_treeAt_self hmem)
  · obtain ⟨node, hlive⟩ := contains_iff.mp hchild
    rw [isScheduled, hnode, if_pos rfl, hlive]
    rfl
  · rw [hnode, if_pos rfl]
  · rw [hnode, if_neg hn]

/-- **Nodes are moved as a whole, and never beneath themselves.** No node is above itself. A move
fails exactly if one of the nodes is not there, or the node to be moved is its new parent or above
it; then no step of it has been taken. Otherwise the node is the last child of its new parent
afterwards, with all that was beneath it, and it waits. -/
theorem Reachable.append_whole (h : Reachable AnyCommand t) :
    (∀ n, ¬ Relation.TransGen t.shape.Under n n) ∧
      ∀ parent child,
        ((∃ e, t.append parent child = .error e) ↔
          t.contains parent = false ∨ t.contains child = false ∨
            Relation.ReflTransGen t.shape.Under parent child) ∧
        (∀ e, t.append parent child = .error e →
          t.appendInSteps parent child = (t, false) ∧ t.after (.append parent child) = t) ∧
        ∀ t', t.append parent child = .ok t' →
          t.appendInSteps parent child = (t', true) ∧ t.Moves parent child t' := by
  have hsound := h.sound
  refine ⟨Forest.not_transGen_under hsound.nodup, fun parent child => ⟨?_, ?_, ?_⟩⟩
  · rw [append_eq_error_iff]
    cases hlive : t.contains parent with
    | false => simp
    | true =>
      rw [Forest.mem_path_iff_under hsound.nodup ((hsound.mem_shape parent).mpr hlive)]
  · intro e he
    refine ⟨by rw [appendInSteps_eq hsound, he], ?_⟩
    show (t.append parent child).toOption.getD t = t
    rw [he]
    rfl
  · intro t' hok
    exact ⟨by rw [appendInSteps_eq hsound, hok], moves_append hsound hok⟩

/-- A child that is moved to the parent that it has comes after its sibling, and a parent is not
moved beneath its child. -/
theorem append_whole_again :
    let t := (withFont .default (.ofHost .default fun _ => .fixed 16) .builtIn).run
      [.create, .create, .create, .append ⟨0⟩ ⟨1⟩, .append ⟨0⟩ ⟨2⟩]
    (∃ t', t.append ⟨0⟩ ⟨1⟩ = .ok t' ∧ t.Moves ⟨0⟩ ⟨1⟩ t' ∧
      t'.shape.children ⟨0⟩ = [⟨2⟩, ⟨1⟩]) ∧
      t.appendInSteps ⟨1⟩ ⟨0⟩ = (t, false) := by
  intro t
  have hreach : Reachable AnyCommand t := (Reachable.start _ _ _).run _
  obtain ⟨hzero, hone, hpath, hchildren, hbeneath⟩ :
      t.contains ⟨0⟩ = true ∧ t.contains ⟨1⟩ = true ∧ ⟨1⟩ ∉ t.shape.path ⟨0⟩ ∧
        t.shape.children ⟨0⟩ = [⟨1⟩, ⟨2⟩] ∧ ⟨0⟩ ∈ t.shape.path ⟨1⟩ := by
    decide +kernel
  obtain ⟨-, hmove⟩ := hreach.append_whole
  constructor
  · have hok := append_of_fits hzero hone hpath
    obtain ⟨-, hmoves⟩ := (hmove ⟨0⟩ ⟨1⟩).2.2 _ hok
    refine ⟨_, hok, hmoves, ?_⟩
    rw [hmoves.last, hchildren]
    rfl
  · obtain ⟨e, he⟩ := append_eq_error_iff.mpr (.inr (.inr hbeneath))
    exact ((hmove ⟨1⟩ ⟨0⟩).2.1 e he).1

end Tree

end FlexStyle
