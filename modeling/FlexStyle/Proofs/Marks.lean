import FlexStyle.Proofs.Box
import FlexStyle.Proofs.Tree.Commute
import FlexStyle.Proofs.Tree.Edits

/-!
# Marks

A box is marked when it is new, and when an application has changed its record; the marks stay until
the layout collects them. An application says that it has changed a record if any of its assignments
says so, and an assignment that says nothing has left the record alone. So a box without a mark is
as it was.

- `BoxStore.Tracks`: whether the marks of a store know of all that has changed.
- `Tree.tracks_apply`, `Tree.tracks_after`: applications, and all commands but the collection of
  marks, keep them so.
- `Tree.Collected`: what the boxes that are collected tell.
- `Tree.Reachable.takeDirty_reports`: no change of a box goes unreported.
-/

namespace FlexStyle

namespace BoxStore

variable {r s t : BoxStore}

/-- Whether a box of `t` without a mark is one of `s`, with its record, and without a mark there. -/
def Tracks (s t : BoxStore) : Prop :=
  ∀ id box, t.slot? id = some box → box.dirty = false → s.slot? id = some box

theorem Tracks.refl (s : BoxStore) : s.Tracks s := fun _ _ hbox _ => hbox

theorem Tracks.trans (h₁ : r.Tracks s) (h₂ : s.Tracks t) : r.Tracks t :=
  fun id box hbox hdirty => h₁ id box (h₂ id box hbox hdirty) hdirty

/-- Boxes may be given up without a mark. -/
theorem Tracks.of_slot? (h : ∀ id, t.slot? id = none ∨ t.slot? id = s.slot? id) : s.Tracks t := by
  intro id box hbox _
  rcases h id with hnone | hsame
  · rw [hnone] at hbox
    cases hbox
  · rw [← hsame, hbox]

theorem tracks_create (h : s.Exact) : s.Tracks s.create.2 := by
  intro id box hbox hdirty
  rw [slot?_create s h] at hbox
  split at hbox
  · -- a new box is marked
    cases hbox
    cases hdirty
  · exact hbox

/-- A record may be written without a mark if it is the one that was there. -/
theorem tracks_write {id : BoxId} {style : BoxStyle} {changed : Bool}
    (h : changed = false → s.style? id = some style) : s.Tracks (s.write id style changed) := by
  intro id' box hbox hdirty
  rw [write, slot?_modifySlot] at hbox
  split at hbox
  case isFalse => exact hbox
  case isTrue hid =>
    subst hid
    obtain ⟨before, hbefore, rfl⟩ := Option.map_eq_some_iff.mp hbox
    obtain ⟨hmark, hchanged⟩ := Bool.or_eq_false_iff.mp hdirty
    have hstyle := h hchanged
    rw [style?, hbefore, Option.map_some, Option.some.injEq] at hstyle
    obtain ⟨record, mark⟩ := before
    rw [hbefore, show record = style from hstyle, show mark = false from hmark, hchanged]
    rfl

end BoxStore

namespace Tree

variable {s t : Tree} {n : NodeId}

/-! ## Marks along a run -/

/-- An application marks the box of its node if it changes the record. -/
theorem tracks_apply (h : t.Sound) (n : NodeId) : t.store.Tracks (t.apply n).1.store := by
  cases hnode : t.node? n with
  | none =>
    rw [apply_of_none hnode]
    exact .refl _
  | some node =>
    obtain ⟨style, hstyle⟩ := h.housed hnode
    rw [apply_eq hnode hstyle]
    refine BoxStore.tracks_write fun hmark => ?_
    have hfound : t.foundStyle n node style = style :=
      BoxStyle.assignAll_of_false (Bool.or_eq_false_iff.mp hmark).2
    rw [hfound, hstyle]

/-- A command that is no creation, no flush and no collection leaves boxes alone or gives them
up. -/
theorem slot?_after (t : Tree) {c : Command} (hcreate : c ≠ .create)
    (hflush : ∀ root, c ≠ .flush root) (hcollect : c ≠ .takeDirty) (id : BoxId) :
    (t.after c).store.slot? id = none ∨ (t.after c).store.slot? id = t.store.slot? id := by
  rcases t.writes_after c with rfl | ⟨root, rfl⟩ | ⟨n, rfl⟩ | rfl | hwrites
  · exact absurd rfl hcreate
  · exact absurd rfl (hflush root)
  · rcases t.after_removeSubtree_cases n with hsame | hok
    · rw [hsame]
      exact .inr rfl
    · rw [slot?_removeSubtree hok]
      split
      · exact .inl rfl
      · exact .inr rfl
  · exact absurd rfl hcollect
  · rw [hwrites.store]
    exact .inr rfl

/-- No command changes a box without a mark, unless it collects the marks. -/
theorem tracks_after (h : t.Sound) {c : Command} (hcollect : c ≠ .takeDirty) :
    t.store.Tracks (t.after c).store := by
  by_cases hcreate : c = .create
  · subst hcreate
    exact BoxStore.tracks_create h.exact
  · by_cases hflush : ∃ root, c = .flush root
    · obtain ⟨root, rfl⟩ := hflush
      rcases t.after_flush_cases root with hsame | ⟨applied, hok⟩
      · rw [hsame]
        exact .refl _
      · exact flush_induction (P := fun u => t.store.Tracks u.store) (fun _ _ hu => hu)
          (fun _ n hs hu => hu.trans (tracks_apply hs n)) h (.refl _) hok
    · exact .of_slot? (t.slot?_after hcreate (fun root hc => hflush ⟨root, hc⟩) hcollect)

theorem tracks_run (h : Reachable AnyCommand s) {commands : List Command}
    (hcollect : .takeDirty ∉ commands) : s.store.Tracks (s.run commands).store := by
  induction commands generalizing s with
  | nil => exact .refl _
  | cons c rest ih =>
    rw [List.mem_cons, not_or] at hcollect
    exact (tracks_after h.sound (Ne.symm hcollect.1)).trans (ih (h.step trivial) hcollect.2)

/-- The same of such commands in turn. -/
theorem slot?_run (s : Tree) {commands : List Command}
    (hcommands : ∀ c ∈ commands, c ≠ .create ∧ (∀ root, c ≠ .flush root) ∧ c ≠ .takeDirty)
    (id : BoxId) :
    (s.run commands).store.slot? id = none ∨
      (s.run commands).store.slot? id = s.store.slot? id := by
  induction commands generalizing s with
  | nil => exact .inr rfl
  | cons c rest ih =>
    obtain ⟨hcreate, hflush, hcollect⟩ := hcommands c List.mem_cons_self
    have hrest := ih (s.after c) fun c hc => hcommands c (List.mem_cons_of_mem _ hc)
    rcases hrest with hnone | hsame
    · exact .inl hnone
    · rcases s.slot?_after hcreate hflush hcollect id with hnone | hfirst
      · exact .inl (hsame.trans hnone)
      · exact .inr (hsame.trans hfirst)

/-! ## What is collected -/

/-- What the boxes that are collected after some commands tell of what has happened since `s`. -/
structure Collected (s : Tree) (commands : List Command) (ids : List BoxId) : Prop where
  increasing : ids.Pairwise fun a b => a.number < b.number
  live : ∀ id ∈ ids, ((s.run commands).store.slot? id).isSome = true
  /-- A box that one of the commands has created is reported, if it is still there. -/
  created : ∀ earlier later, commands = earlier ++ .create :: later →
    ((s.run commands).store.slot? (s.run earlier).store.create.1).isSome = true →
      (s.run earlier).store.create.1 ∈ ids
  /-- A box is reported if its record is another one in the slightest. -/
  altered : ∀ id before after, s.store.style? id = some before →
    (s.run commands).store.style? id = some after → after ≠ before → id ∈ ids
  /-- Without creations and flushes, nothing new is reported. -/
  quiet : (∀ c ∈ commands, c ≠ .create ∧ ∀ root, c ≠ .flush root) →
    ∀ id ∈ ids, s.store.isDirty id = true

section Collection

variable {commands : List Command} {id : BoxId} {box : BoxSlot}

/-- A box that is not collected has been there all the time, as it is and without a mark. -/
theorem slot?_of_notMem (h : s.store.Tracks t.store) (hbox : t.store.slot? id = some box)
    (hid : id ∉ t.store.takeDirty.1) : s.store.slot? id = some box ∧ box.dirty = false := by
  have hdirty : box.dirty = false := by
    by_contra hmark
    refine hid (BoxStore.mem_takeDirty.mpr (BoxStore.isDirty_iff.mpr ⟨box, hbox, ?_⟩))
    simpa using hmark
  exact ⟨h id box hbox hdirty, hdirty⟩

theorem mem_collected_of_created (h : Reachable AnyCommand s) {earlier later : List Command}
    (hcollect : .takeDirty ∉ later)
    (hlive : ((s.run (earlier ++ .create :: later)).store.slot?
      (s.run earlier).store.create.1).isSome = true) :
    (s.run earlier).store.create.1 ∈
      (s.run (earlier ++ .create :: later)).store.takeDirty.1 := by
  have hreach : Reachable AnyCommand (s.run earlier) := h.run earlier
  have hrun : s.run (earlier ++ .create :: later) = (s.run earlier).create.2.run later :=
    List.foldl_append
  rw [hrun] at hlive ⊢
  obtain ⟨box, hbox⟩ := Option.isSome_iff_exists.mp hlive
  have hcreated : Reachable AnyCommand (s.run earlier).create.2 :=
    hreach.step (c := .create) trivial
  by_contra hid
  -- it would have been without a mark when it was new
  obtain ⟨hnew, hdirty⟩ := slot?_of_notMem (tracks_run hcreated hcollect) hbox hid
  have hmark := BoxStore.slot?_create_self hreach.sound.exact
  cases hmark.symm.trans hnew
  cases hdirty

theorem mem_collected_of_altered (h : Reachable AnyCommand s) (hcollect : .takeDirty ∉ commands)
    {before after : BoxStyle} (hbefore : s.store.style? id = some before)
    (hafter : (s.run commands).store.style? id = some after) (hne : after ≠ before) :
    id ∈ (s.run commands).store.takeDirty.1 := by
  obtain ⟨box, hbox, rfl⟩ := Option.map_eq_some_iff.mp hafter
  by_contra hid
  obtain ⟨hsame, -⟩ := slot?_of_notMem (tracks_run h hcollect) hbox hid
  rw [BoxStore.style?, hsame] at hbefore
  exact hne (Option.some.inj hbefore)

theorem isDirty_of_collected
    (hcommands : ∀ c ∈ commands, c ≠ .create ∧ (∀ root, c ≠ .flush root) ∧ c ≠ .takeDirty)
    (hid : id ∈ (s.run commands).store.takeDirty.1) : s.store.isDirty id = true := by
  obtain ⟨box, hbox, hdirty⟩ := BoxStore.isDirty_iff.mp (BoxStore.mem_takeDirty.mp hid)
  rcases s.slot?_run hcommands id with hnone | hsame
  · rw [hbox] at hnone
    cases hnone
  · exact BoxStore.isDirty_iff.mpr ⟨box, hsame ▸ hbox, hdirty⟩

/-- **No change of a box goes unreported.** Whatever happens after the marks of a tree have been
collected, or after any other moment, the next collection reports every box that is new and every
box whose record has changed, in order and without repetition; and no mark is left after it. -/
theorem Reachable.takeDirty_reports (h : Reachable AnyCommand s)
    (hcollect : .takeDirty ∉ commands) :
    s.Collected commands (s.run commands).store.takeDirty.1 ∧
      ∀ id, (s.run commands).store.takeDirty.2.isDirty id = false := by
  refine ⟨⟨BoxStore.pairwise_takeDirty _, ?_, ?_, ?_, ?_⟩, BoxStore.isDirty_takeDirty _⟩
  · intro id hid
    obtain ⟨box, hbox, -⟩ := BoxStore.isDirty_iff.mp (BoxStore.mem_takeDirty.mp hid)
    exact Option.isSome_iff_exists.mpr ⟨box, hbox⟩
  · rintro earlier later rfl hlive
    refine mem_collected_of_created h (fun hlater => ?_) hlive
    exact hcollect (List.mem_append_right _ (List.mem_cons_of_mem _ hlater))
  · intro id before after hbefore hafter hne
    exact mem_collected_of_altered h hcollect hbefore hafter hne
  · intro hquiet id hid
    refine isDirty_of_collected (fun c hc => ⟨(hquiet c hc).1, (hquiet c hc).2, ?_⟩) hid
    rintro rfl
    exact hcollect hc

/-- One of three boxes is changed, one is given up and its slot used again, and one is left alone:
the first two are reported. -/
theorem takeDirty_reports_two :
    let s := (withFont .default (.ofHost .default fun _ => .fixed 16) .builtIn).run
      [.create, .create, .create, .takeDirty]
    let commands : List Command :=
      [.set ⟨0⟩ .inline "width" [.integer 5], .flush ⟨0⟩, .removeSubtree ⟨1⟩, .create]
    (s.run commands).store.takeDirty.1 = [⟨0⟩, ⟨1⟩] ∧ .takeDirty ∉ commands ∧
      s.Collected commands [⟨0⟩, ⟨1⟩] := by
  intro s commands
  have hreach : Reachable AnyCommand s := (Reachable.start _ _ _).run _
  have hcollect : .takeDirty ∉ commands := by simp [commands]
  have hids : (s.run commands).store.takeDirty.1 = [⟨0⟩, ⟨1⟩] := by decide +kernel
  obtain ⟨hcollected, -⟩ := hreach.takeDirty_reports hcollect
  exact ⟨hids, hcollect, hids ▸ hcollected⟩

end Collection

end Tree

end FlexStyle
