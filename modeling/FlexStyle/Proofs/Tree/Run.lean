import FlexStyle.Proofs.Tree.Flush

/-!
# Runs

A host works on a tree by commands, in any order. What can be said of all trees that come about in
this way is proved once for creation, once for flushes, and once for all other commands together,
which are all of the kind that `Tree.Evolves` describes.

- `Command`, `Tree.after`: the commands, and the tree after one of them.
- `Tree.Reports`: whether a command is no copy that reports no change.
- `Tree.Reachable`: the trees that commands of some kind lead to.
- `Tree.Reachable.induction`: how to prove what holds of all of them.
-/

namespace FlexStyle

/-- What a host may ask of a tree. -/
inductive Command where
  | create
  | append (parent child : NodeId)
  | detach (n : NodeId)
  | removeSubtree (n : NodeId)
  | set (n : NodeId) (g : Group) (name : String) (values : List Raw)
  | setText (n : NodeId) (g : Group) (name text : String)
  | remove (n : NodeId) (g : Group) (name : String)
  | clear (n : NodeId) (choice : Option Group)
  | copyStyles (target source : NodeId) (choice : Option Group)
  | setFont (n : NodeId) (font : Option FontId)
  | setInlineText (n : NodeId) (text : String)
  | flush (root : NodeId)
  | takeDirty

namespace Tree

/-- The tree after a command. A command that fails changes nothing. -/
def after (t : Tree) : Command → Tree
  | .create => t.create.2
  | .append parent child => (t.append parent child).toOption.getD t
  | .detach n => (t.detach n).toOption.getD t
  | .removeSubtree n => (t.removeSubtree n).toOption.getD t
  | .set n g name values => (t.set n g name values).1
  | .setText n g name text => (t.setText n g name text).1
  | .remove n g name => (t.remove n g name).1
  | .clear n choice => (t.clear n choice).1
  | .copyStyles target source choice => (t.copyStyles target source choice).1
  | .setFont n font => (t.setFont n font).1
  | .setInlineText n text => (t.setInlineText n text).1
  | .flush root => ((t.flush root).toOption.map (·.1)).getD t
  | .takeDirty => { t with store := t.store.takeDirty.2 }

/-- Whether a command, if it is a copy, reports a change. -/
def Reports (t : Tree) : Command → Prop
  | .copyStyles target source choice => (t.copyStyles target source choice).2 = true
  | _ => True

/-- No restriction on commands. -/
def AnyCommand (_ : Tree) (_ : Command) : Prop := True

/-- The trees that come about by commands that are allowed. -/
inductive Reachable (allowed : Tree → Command → Prop) : Tree → Prop
  | start (config : Config) (fonts : Fonts) (font : FontId) :
    Reachable allowed (.withFont config fonts font)
  | step {t : Tree} {c : Command} :
    Reachable allowed t → allowed t c → Reachable allowed (t.after c)

variable {t : Tree} {allowed : Tree → Command → Prop}

/-- An operation on the shape succeeds, or nothing happens. -/
theorem evolves_toOption {ordered : Prop} (h : t.Sound) {result : Except TreeError Tree}
    (hok : ∀ t', result = .ok t' → t.Evolves ordered t') :
    t.Evolves ordered (result.toOption.getD t) := by
  cases result with
  | error e => exact .refl h
  | ok t' => exact hok t' rfl

/-- A flush succeeds, or nothing happens. -/
theorem after_flush_cases (t : Tree) (root : NodeId) :
    t.after (.flush root) = t ∨ ∃ applied, t.flush root = .ok (t.after (.flush root), applied) := by
  have hafter : t.after (.flush root) = ((t.flush root).toOption.map (·.1)).getD t := rfl
  rw [hafter]
  cases hok : t.flush root with
  | error e => exact .inl rfl
  | ok result => exact .inr ⟨result.2, rfl⟩

theorem after_flush_of_ok {root : NodeId} {t' : Tree} {applied : List NodeId}
    (hok : t.flush root = .ok (t', applied)) : t.after (.flush root) = t' := by
  rw [after, hok]
  rfl

/-- There are three kinds of commands. -/
theorem after_cases (h : t.Sound) (c : Command) :
    c = .create ∨
      (∃ root applied, c = .flush root ∧ t.flush root = .ok (t.after c, applied)) ∨
      t.Evolves (t.Reports c) (t.after c) := by
  cases c with
  | create => exact .inl rfl
  | flush root =>
    rcases t.after_flush_cases root with hsame | ⟨applied, hok⟩
    · refine .inr (.inr ?_)
      rw [hsame]
      exact .refl h
    · exact .inr (.inl ⟨root, applied, rfl, hok⟩)
  | append parent child => exact .inr (.inr (evolves_toOption h fun _ => evolves_append h))
  | detach n => exact .inr (.inr (evolves_toOption h fun _ => evolves_detach h))
  | removeSubtree n => exact .inr (.inr (evolves_toOption h fun _ => evolves_removeSubtree h))
  | set n g name values => exact .inr (.inr (evolves_set h g name values))
  | setText n g name text => exact .inr (.inr (evolves_set h g name _))
  | remove n g name => exact .inr (.inr (evolves_remove h g name))
  | clear n choice => exact .inr (.inr (evolves_clear h choice))
  | copyStyles target source choice =>
    exact .inr (.inr (evolves_copyStyles h target source choice))
  | setFont n font => exact .inr (.inr (evolves_setFont h font))
  | setInlineText n text => exact .inr (.inr (evolves_setInlineText h text))
  | takeDirty => exact .inr (.inr (evolves_takeDirty h))

/-- The tree after some commands in turn. -/
def run (t : Tree) (commands : List Command) : Tree := commands.foldl after t

theorem Reachable.run (h : Reachable AnyCommand t) (commands : List Command) :
    Reachable AnyCommand (t.run commands) := by
  induction commands generalizing t with
  | nil => exact h
  | cons c commands ih => exact ih (h.step trivial)

/-- All trees that can be reached are sound. -/
theorem Reachable.sound (h : Reachable allowed t) : t.Sound := by
  induction h with
  | start config fonts font => exact sound_withFont config fonts font
  | @step t c _ _ ih =>
    rcases after_cases ih c with rfl | ⟨root, applied, rfl, hok⟩ | hevolves
    · exact sound_create ih
    · exact sound_flush ih hok
    · exact hevolves.sound

/-- In all trees that can be reached, the nodes that wait are in the queue. -/
theorem Reachable.queued (h : Reachable allowed t) : t.Queued := by
  induction h with
  | start config fonts font => exact queued_withFont config fonts font
  | @step t c ht _ ih =>
    rcases after_cases ht.sound c with rfl | ⟨root, applied, rfl, hok⟩ | hevolves
    · exact queued_create ih
    · exact queued_flush ht.sound ih hok
    · exact hevolves.queued ih

/-- What holds of a tree without nodes, and is kept by creation, by flushes and by all other
commands, holds of all trees that can be reached. -/
theorem Reachable.induction {P : Tree → Prop}
    (hstart : ∀ config fonts font, P (.withFont config fonts font))
    (hcreate : ∀ t, t.Sound → P t → P t.create.2)
    (hflush : ∀ t t' root applied, t.Sound → t.flush root = .ok (t', applied) → P t → P t')
    (hevolves : ∀ t c, t.Sound → allowed t c → t.Evolves (t.Reports c) (t.after c) → P t →
      P (t.after c)) (h : Reachable allowed t) : P t := by
  induction h with
  | start config fonts font => exact hstart config fonts font
  | @step t c ht hallowed ih =>
    rcases after_cases ht.sound c with rfl | ⟨root, applied, rfl, hok⟩ | hc
    · exact hcreate t ht.sound ih
    · exact hflush t _ root applied ht.sound hok ih
    · exact hevolves t c ht.sound hallowed hc ih

end Tree

end FlexStyle
