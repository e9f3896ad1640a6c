import FlexStyle.Proofs.Tree.Edits
import FlexStyle.Proofs.Tree.Visits

/-!
# Removed nodes

The number of a node outlives the node, in the queue and wherever a tree keeps it. It is given once
only, so that no later node has it, and nothing brings the node back. What hosts hold of removed
nodes is another matter: see `FlexStyle.Proofs.Handles`.

- `Tree.Gone`: a number whose node has been removed. `Tree.gone_after` says that no command changes
  that.
- `Tree.Rejects`: what it means that a tree has no use for a number. `Tree.rejects_iff` says that
  this is so where no node has it, and `Tree.Rejects.after` that no command that names it changes
  anything.
-/

namespace FlexStyle

/-- The numbers that a command names. -/
def Command.names : Command → List NodeId
  | .create | .takeDirty => []
  | .append parent child => [parent, child]
  | .copyStyles target source _ => [target, source]
  | .detach n | .removeSubtree n | .flush n => [n]
  | .set n .. | .setText n .. | .remove n .. | .clear n .. => [n]
  | .setFont n _ | .setInlineText n _ => [n]

namespace Tree

variable {t t' : Tree} {n m : NodeId}

/-! ## Removed nodes -/

/-- Whether a number has been given to a node that is not there any more. -/
def Gone (t : Tree) (n : NodeId) : Prop := n.number < t.nodes.size ∧ t.node? n = none

theorem Gone.contains (h : t.Gone n) : t.contains n = false := by
  rw [Tree.contains, h.2]
  rfl

/-- Edits bring back no node that has been removed. -/
theorem Gone.edits {s : Tree} (h : s.Gone n) (he : s.Edits t) : t.Gone n :=
  ⟨by rw [he.size]; exact h.1, he.node?_of_none h.2⟩

/-- A new node has a new number. -/
theorem Gone.ne_create (h : t.Gone n) : n ≠ t.create.1 := by
  rintro rfl
  exact Nat.lt_irrefl _ h.1

/-- A node that is created is not one that has been removed. -/
theorem Gone.create (h : t.Gone n) : t.create.2.Gone n := by
  constructor
  · show n.number < (t.nodes.push _).size
    rw [Array.size_push]
    exact Nat.lt_succ_of_lt h.1
  · rw [node?_create, if_neg h.ne_create]
    exact h.2

theorem size_apply (t : Tree) (n : NodeId) : (t.apply n).1.nodes.size = t.nodes.size := by
  unfold apply
  split
  · rfl
  · dsimp only
    split
    · exact size_modify _ n _
    · exact size_modify _ n _

/-- A flush gives out no numbers. -/
theorem size_flush (h : t.Sound) {root : NodeId} {applied : List NodeId}
    (hok : t.flush root = .ok (t', applied)) : t'.nodes.size = t.nodes.size :=
  flush_induction (P := fun u => u.nodes.size = t.nodes.size) (fun _ _ hu => hu)
    (fun u m _ hu => (size_apply u m).trans hu) h rfl hok

/-- Applying a node brings back no other. -/
theorem Gone.apply (h : t.Gone n) (hs : t.Sound) (m : NodeId) : (t.apply m).1.Gone n := by
  refine ⟨by rw [size_apply]; exact h.1, ?_⟩
  by_cases hnm : n = m
  · subst hnm
    rw [apply_of_none h.2]
    exact h.2
  · rw [node?_apply_of_ne hs hnm]
    exact h.2

/-- No command brings back a node that has been removed. -/
theorem gone_after (hs : t.Sound) (h : t.Gone n) (c : Command) : (t.after c).Gone n := by
  rcases t.edits_after c with rfl | ⟨root, rfl⟩ | hedits
  · exact h.create
  · rcases t.after_flush_cases root with hsame | ⟨applied, hok⟩
    · rwa [hsame]
    · exact flush_induction (P := (Gone · n)) (fun _ _ hg => hg) (fun _ m hs hg => hg.apply hs m)
        hs h hok
  · exact h.edits hedits

/-- What is beneath a node goes with it. -/
theorem gone_removeSubtree (h : t.Sound) (hok : t.removeSubtree n = .ok t')
    (hm : n ∈ t.shape.path m) : t'.Gone m := by
  have hmem : m ∈ (t.shape.treeAt n).toList := (Forest.mem_path_iff h.nodup).mp hm
  obtain ⟨node, hnode⟩ := contains_iff.mp
    ((h.mem_shape m).mp (Forest.mem_of_mem_treeAt h.nodup hmem))
  refine ⟨by rw [(edits_removeSubtree hok).size]; exact lt_size_of_node? hnode, ?_⟩
  rw [node?_removeSubtree h hok, if_pos hmem]

/-! ## Rejection -/

/-- Whether a tree has no use for a number: nothing is found under it, every write fails and leaves
the tree as it is, and every change of the shape is refused. -/
structure Rejects (t : Tree) (n : NodeId) : Prop where
  contains : t.contains n = false
  parent? : t.parent? n = none
  get? : ∀ g name, t.get? n g name = none
  cascaded : ∀ name, t.cascaded n name = []
  inlineText : t.inlineText n = ""
  text : (t.node? n).map (·.text) = none
  boxStyle? : t.boxStyle? n = none
  isScheduled : t.isScheduled n = false
  set : ∀ g name values, t.set n g name values = (t, false)
  setText : ∀ g name text, t.setText n g name text = (t, false)
  remove : ∀ g name, t.remove n g name = (t, false)
  clear : ∀ choice, t.clear n choice = (t, false)
  copyTo : ∀ source choice, t.copyStyles n source choice = (t, false)
  copyFrom : ∀ target choice, t.copyStyles target n choice = (t, false)
  setInlineText : ∀ text, t.setInlineText n text = (t, false)
  setFont : ∀ font, t.setFont n font = (t, false)
  appendTo : ∀ child, t.append n child = .error (.missing n)
  appendFrom : ∀ parent,
    t.append parent n = .error (.missing (if t.contains parent then n else parent))
  detach : t.detach n = .error (.missing n)
  removeSubtree : t.removeSubtree n = .error (.missing n)
  flush : t.flush n = .error (.missing n)
  /-- It may still be in the queue, but has no turn in any flush. -/
  turns : ∀ root, n ∉ t.turns root

theorem changeTable_of_none (hn : t.node? n = none)
    (change : Table Property → Table Property × Bool) : t.changeTable n change = (t, false) := by
  rw [changeTable, hn]

theorem remove_of_none (hn : t.node? n = none) (g : Group) (name : String) :
    t.remove n g name = (t, false) := by
  unfold remove
  split
  · rfl
  · exact changeTable_of_none hn _

/-- A property is not set on a node that is not there. -/
theorem set_of_none (hn : t.node? n = none) (g : Group) (name : String) (values : List Raw) :
    t.set n g name values = (t, false) := by
  unfold set
  split
  · rfl
  · split
    · exact remove_of_none hn g name
    · split
      case h_1 hlive =>
        rw [contains, hn] at hlive
        cases hlive
      case h_2 => rfl

/-- Nothing is copied to a node that is not there. -/
theorem copyStyles_of_none (hn : t.node? n = none) (source : NodeId) (choice : Option Group) :
    t.copyStyles n source choice = (t, false) := by
  unfold copyStyles
  split
  · rfl
  · exact changeTable_of_none hn _

/-- A node that is not there cannot be appended. If the other one is missing as well, that one is
named in the error. -/
theorem append_of_missing_child (hn : t.contains n = false) (parent : NodeId) :
    t.append parent n = .error (.missing (if t.contains parent then n else parent)) := by
  rw [append, hn]
  cases t.contains parent <;> rfl

theorem get?_of_none (hn : t.node? n = none) (g : Group) (name : String) :
    t.get? n g name = none := by
  unfold get?
  rw [hn]
  cases Property.ofName? name <;> rfl

theorem cascaded_of_none (hn : t.node? n = none) (name : String) : t.cascaded n name = [] := by
  unfold cascaded
  rw [hn]
  cases Property.ofName? name <;> rfl

/-- A tree has no use for the numbers that no node has. -/
theorem rejects_of_none (hs : t.Sound) (hn : t.node? n = none) : t.Rejects n := by
  have hmissing : t.contains n = false := by rw [contains, hn]; rfl
  exact {
    contains := hmissing
    parent? := Forest.parent?_eq_none fun hmem => by
      rw [hs.mem_shape, hmissing] at hmem
      cases hmem
    get? := get?_of_none hn
    cascaded := cascaded_of_none hn
    inlineText := by rw [inlineText, hn]
    text := by rw [hn]; rfl
    boxStyle? := by rw [boxStyle?, hn]; rfl
    isScheduled := by rw [isScheduled, hn]; rfl
    set := set_of_none hn
    setText := fun g name text => set_of_none hn g name [.text text]
    remove := remove_of_none hn
    clear := fun choice => changeTable_of_none hn (·.clear choice)
    copyTo := copyStyles_of_none hn
    copyFrom := fun target choice => by rw [copyStyles, hn]
    setInlineText := fun text => by rw [setInlineText, hmissing]; rfl
    setFont := fun font => by rw [setFont, hn]
    appendTo := fun child => by rw [append, hmissing]; rfl
    appendFrom := append_of_missing_child hmissing
    detach := by rw [detach, hmissing]; rfl
    removeSubtree := by rw [removeSubtree, hmissing]; rfl
    flush := flush_of_missing hmissing
    turns := fun root hturn => by
      rw [mem_turns, hmissing] at hturn
      cases hturn.2.1 }

/-- A tree has no use for the numbers that it does not contain, and for no others. -/
theorem rejects_iff (hs : t.Sound) : t.Rejects n ↔ t.contains n = false :=
  ⟨Rejects.contains, fun hn => rejects_of_none hs (Option.not_isSome_iff_eq_none.mp (by
    rw [← contains, hn]
    exact Bool.false_ne_true))⟩

/-- A command that names a number without a node changes nothing, whatever else it names. -/
theorem Rejects.after (h : t.Rejects n) (c : Command) (hc : n ∈ c.names) : t.after c = t := by
  cases c with
  | create | takeDirty => cases hc
  | append parent child =>
    show (t.append parent child).toOption.getD t = t
    rcases List.mem_pair.mp hc with rfl | rfl
    · rw [h.appendTo]; rfl
    · rw [h.appendFrom]; rfl
  | copyStyles target source choice =>
    show (t.copyStyles target source choice).1 = t
    rcases List.mem_pair.mp hc with rfl | rfl
    · rw [h.copyTo]
    · rw [h.copyFrom]
  | detach => cases List.mem_singleton.mp hc; rw [Tree.after, h.detach]; rfl
  | removeSubtree => cases List.mem_singleton.mp hc; rw [Tree.after, h.removeSubtree]; rfl
  | flush => cases List.mem_singleton.mp hc; rw [Tree.after, h.flush]; rfl
  | set => cases List.mem_singleton.mp hc; rw [Tree.after, h.set]
  | setText => cases List.mem_singleton.mp hc; rw [Tree.after, h.setText]
  | remove => cases List.mem_singleton.mp hc; rw [Tree.after, h.remove]
  | clear => cases List.mem_singleton.mp hc; rw [Tree.after, h.clear]
  | setFont => cases List.mem_singleton.mp hc; rw [Tree.after, h.setFont]
  | setInlineText => cases List.mem_singleton.mp hc; rw [Tree.after, h.setInlineText]

end Tree

end FlexStyle
