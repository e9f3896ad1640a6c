import FlexStyle.Proofs.Tree.Run

/-!
# Elementary edits

All commands but creations and flushes are made of a few elementary edits: one node is changed or
given up, a node is scheduled, the shape is another one, marks are read. What holds of a tree
whatever its edits are in detail is proved edit by edit. Most commands do without giving nodes up
and without reading marks: they are writes, and leave all boxes alone.

- `Tree.Writes`: a tree that comes from another one by writes; `Tree.Writes.store` and
  `Tree.Writes.box?` say that all nodes keep their boxes, and the boxes their records and marks.
- `Tree.Edits`: a tree that comes from another one by elementary edits.
- `Tree.writes_after`, `Tree.edits_after`: the commands that are made of them.
- `Tree.Edits.size`, `Tree.Edits.node?_of_none`: edits give no new numbers, and bring no node back.
-/

namespace FlexStyle.Tree

/-- The trees that come from `s` by writes: by changes of nodes that keep their flags and boxes, by
scheduling, and by changes of the shape. -/
inductive Writes (s : Tree) : Tree → Prop
  | none : Writes s s
  | modify {t : Tree} (n : NodeId) (change : Node → Node) :
    Writes s t → (∀ node, (change node).scheduled = node.scheduled) →
      (∀ node, (change node).box = node.box) → Writes s (t.modify n change)
  | schedule {t : Tree} (n : NodeId) : Writes s t → Writes s (t.schedule n)
  | reshape {t : Tree} (shape : Forest NodeId) : Writes s t → Writes s { t with shape }

/-- The trees that come from `s` by elementary edits. None of them raises or lowers the flag of a
node that waits, unless it is by scheduling. -/
inductive Edits (s : Tree) : Tree → Prop
  | none : Edits s s
  | modify {t : Tree} (n : NodeId) (change : Node → Node) :
    Edits s t → (∀ node, (change node).scheduled = node.scheduled) → Edits s (t.modify n change)
  | schedule {t : Tree} (n : NodeId) : Edits s t → Edits s (t.schedule n)
  | discard {t : Tree} (n : NodeId) : Edits s t → Edits s (t.discard n)
  | reshape {t : Tree} (shape : Forest NodeId) : Edits s t → Edits s { t with shape }
  | readMarks {t : Tree} : Edits s t → Edits s { t with store := t.store.takeDirty.2 }

variable {r s t : Tree} {n : NodeId}

/-- Writes after writes are writes. -/
theorem Writes.trans (h₁ : r.Writes s) (h₂ : s.Writes t) : r.Writes t := by
  induction h₂ with
  | none => exact h₁
  | modify n change _ hflag hbox ih => exact .modify n change ih hflag hbox
  | schedule n _ ih => exact .schedule n ih
  | reshape shape _ ih => exact .reshape shape ih

/-- All writes are elementary edits. -/
theorem Writes.edits (h : s.Writes t) : s.Edits t := by
  induction h with
  | none => exact .none
  | modify n change _ hflag _ ih => exact .modify n change ih hflag
  | schedule n _ ih => exact .schedule n ih
  | reshape shape _ ih => exact .reshape shape ih

/-! ## Commands -/

/-- A change of a table schedules its node if it reports a change. -/
theorem writes_changeTable (t : Tree) (n : NodeId)
    (change : Table Property → Table Property × Bool) : t.Writes (t.changeTable n change).1 := by
  unfold changeTable
  split
  · exact .none
  case h_2 node _ =>
    have hmodified :
        t.Writes (t.modify n fun node' => { node' with table := (change node.table).1 }) :=
      .modify n _ .none (fun _ => rfl) fun _ => rfl
    show t.Writes (if (change node.table).2 then _ else _)
    split
    · exact .schedule n hmodified
    · exact hmodified

theorem writes_remove (t : Tree) (n : NodeId) (g : Group) (name : String) :
    t.Writes (t.remove n g name).1 := by
  unfold remove
  split
  · exact .none
  · exact writes_changeTable t n _

/-- A property that is set, or removed for lack of values, is a write. -/
theorem writes_set (t : Tree) (n : NodeId) (g : Group) (name : String) (values : List Raw) :
    t.Writes (t.set n g name values).1 := by
  unfold set
  split
  · exact .none
  · split
    · exact writes_remove t n g name
    · split
      · exact .schedule n (.modify n _ .none (fun _ => rfl) fun _ => rfl)
      · exact .none

theorem writes_copyStyles (t : Tree) (target source : NodeId) (choice : Option Group) :
    t.Writes (t.copyStyles target source choice).1 := by
  unfold copyStyles
  split
  · exact .none
  · exact writes_changeTable t target _

theorem writes_setFont (t : Tree) (n : NodeId) (font : Option FontId) :
    t.Writes (t.setFont n font).1 := by
  unfold setFont
  split
  · exact .none
  · split
    · exact .none
    · exact .schedule n (.modify n _ .none (fun _ => rfl) fun _ => rfl)

/-- Declarations are set one after the other. -/
theorem writes_declare (t : Tree) (n : NodeId) (declarations : List Declaration) :
    t.Writes (t.declare n declarations).1 := by
  induction declarations generalizing t with
  | nil => exact .none
  | cons d rest ih => exact (writes_set t n .inline d.property _).trans (ih _)

/-- An inline text clears the inline group and then sets its declarations. -/
theorem writes_setInlineText (t : Tree) (n : NodeId) (text : String) :
    t.Writes (t.setInlineText n text).1 := by
  unfold setInlineText
  split
  · exact (writes_changeTable t n _).trans (writes_declare _ n _)
  · exact .none

/-- Appending is a change of the shape, and schedules the node that is moved. -/
theorem writes_append {parent child : NodeId} {t' : Tree} (hok : t.append parent child = .ok t') :
    t.Writes t' := by
  unfold append at hok
  split at hok
  · cases hok
  · split at hok
    · cases hok
    · split at hok
      · cases hok
      · cases hok
        exact .schedule child (.reshape _ .none)

/-- Detaching is a change of the shape, and schedules the node that is moved. -/
theorem writes_detach {t' : Tree} (hok : t.detach n = .ok t') : t.Writes t' := by
  unfold detach at hok
  split at hok
  · cases hok
  · cases hok
    exact .schedule n (.reshape _ .none)

/-- An operation that can fail is a write if it is one when it succeeds. -/
theorem writes_toOption {result : Except TreeError Tree}
    (hok : ∀ t', result = .ok t' → t.Writes t') : t.Writes (result.toOption.getD t) := by
  cases result with
  | error e => exact .none
  | ok t' => exact hok t' rfl

/-- All commands are writes but for four. -/
theorem writes_after (t : Tree) (c : Command) :
    c = .create ∨ (∃ root, c = .flush root) ∨ (∃ n, c = .removeSubtree n) ∨ c = .takeDirty ∨
      t.Writes (t.after c) := by
  cases c with
  | create => exact .inl rfl
  | flush root => exact .inr (.inl ⟨root, rfl⟩)
  | removeSubtree n => exact .inr (.inr (.inl ⟨n, rfl⟩))
  | takeDirty => exact .inr (.inr (.inr (.inl rfl)))
  | append parent child =>
    exact .inr (.inr (.inr (.inr (writes_toOption fun _ => writes_append))))
  | detach n => exact .inr (.inr (.inr (.inr (writes_toOption fun _ => writes_detach))))
  | set n g name values => exact .inr (.inr (.inr (.inr (writes_set t n g name values))))
  | setText n g name text => exact .inr (.inr (.inr (.inr (writes_set t n g name _))))
  | remove n g name => exact .inr (.inr (.inr (.inr (writes_remove t n g name))))
  | clear n choice => exact .inr (.inr (.inr (.inr (writes_changeTable t n _))))
  | copyStyles target source choice =>
    exact .inr (.inr (.inr (.inr (writes_copyStyles t target source choice))))
  | setFont n font => exact .inr (.inr (.inr (.inr (writes_setFont t n font))))
  | setInlineText n text => exact .inr (.inr (.inr (.inr (writes_setInlineText t n text))))

/-- A removal gives up the nodes one by one, and then changes the shape. -/
theorem edits_removeSubtree {t' : Tree} (hok : t.removeSubtree n = .ok t') : t.Edits t' := by
  rw [removeSubtree_ok hok]
  refine .reshape _ (List.foldlRecOn _ _ .none fun s hs m _ => ?_)
  exact .discard m hs

/-- A removal succeeds, or nothing happens. -/
theorem after_removeSubtree_cases (t : Tree) (n : NodeId) :
    t.after (.removeSubtree n) = t ∨ t.removeSubtree n = .ok (t.after (.removeSubtree n)) := by
  have hafter : t.after (.removeSubtree n) = (t.removeSubtree n).toOption.getD t := rfl
  rw [hafter]
  cases hok : t.removeSubtree n with
  | error e => exact .inl rfl
  | ok t' => exact .inr rfl

/-- All commands but creations and flushes are made of elementary edits. -/
theorem edits_after (t : Tree) (c : Command) :
    c = .create ∨ (∃ root, c = .flush root) ∨ t.Edits (t.after c) := by
  rcases t.writes_after c with rfl | ⟨root, rfl⟩ | ⟨n, rfl⟩ | rfl | hwrites
  · exact .inl rfl
  · exact .inr (.inl ⟨root, rfl⟩)
  · refine .inr (.inr ?_)
    rcases t.after_removeSubtree_cases n with hsame | hok
    · rw [hsame]
      exact .none
    · exact edits_removeSubtree hok
  · exact .inr (.inr (.readMarks .none))
  · exact .inr (.inr hwrites.edits)

/-! ## Boxes -/

/-- Writes touch no box. -/
theorem Writes.store (h : s.Writes t) : t.store = s.store := by
  induction h with
  | none => rfl
  | modify n change _ _ _ ih => exact ih
  | schedule n _ ih => exact (schedule_same _ n).store.trans ih
  | reshape shape _ ih => exact ih

/-- All nodes keep their boxes when there are writes. -/
theorem Writes.box? (h : s.Writes t) (m : NodeId) : t.box? m = s.box? m := by
  induction h with
  | none => rfl
  | modify n change _ _ hbox ih =>
    rw [Tree.box?, node?_modify, ← ih, Tree.box?]
    split
    · rw [Option.map_map]
      exact congrArg (Option.map · _) (funext hbox)
    · rfl
  | schedule n _ ih =>
    rw [Tree.box?, node?_schedule, ← ih, Tree.box?]
    split
    · rw [Option.map_map]
      rfl
    · rfl
  | reshape shape _ ih => exact ih

/-- Writes neither add nor remove nodes. -/
theorem Writes.contains (h : s.Writes t) (m : NodeId) : t.contains m = s.contains m := by
  rw [contains_eq_isSome_box?, h.box?, contains_eq_isSome_box?]

/-! ## Numbers and nodes -/

@[simp] theorem size_modify (t : Tree) (n : NodeId) (change : Node → Node) :
    (t.modify n change).nodes.size = t.nodes.size := Array.size_modify

theorem size_schedule (t : Tree) (n : NodeId) : (t.schedule n).nodes.size = t.nodes.size := by
  unfold schedule
  split
  · exact t.size_modify n _
  · rfl

theorem size_discard (t : Tree) (n : NodeId) : (t.discard n).nodes.size = t.nodes.size := by
  unfold discard
  split
  · simp
  · rfl

/-- Edits give out no numbers. -/
theorem Edits.size (h : s.Edits t) : t.nodes.size = s.nodes.size := by
  induction h with
  | none => rfl
  | modify n change _ _ ih => exact (size_modify _ n change).trans ih
  | schedule n _ ih => exact (size_schedule _ n).trans ih
  | discard n _ ih => exact (size_discard _ n).trans ih
  | reshape shape _ ih => exact ih
  | readMarks _ ih => exact ih

/-- Edits bring no node back. -/
theorem Edits.node?_of_none (h : s.Edits t) (hn : s.node? n = .none) : t.node? n = .none := by
  induction h with
  | none => exact hn
  | modify m change _ _ ih =>
    rw [node?_modify, ih]
    split <;> rfl
  | schedule m _ ih =>
    rw [node?_schedule, ih]
    split <;> rfl
  | discard m _ ih =>
    rw [node?_discard, ih]
    split <;> rfl
  | reshape shape _ ih => exact ih
  | readMarks _ ih => exact ih

end FlexStyle.Tree
