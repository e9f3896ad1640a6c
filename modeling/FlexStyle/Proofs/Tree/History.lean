import FlexStyle.Proofs.Tree.Run

/-!
# The last application of every node

Applications are all that writes to the box of a node, so the box is the outcome of the last one.
What that application started from is no part of the tree; it is written down beside it, in a ledger
that every command carries on.

- `Application`: the table and the record that an application of a node starts from.
- `Tree.noteAll`, `Tree.ledgerAfter`: the ledger after applications, and after a command.
- `Tree.Traced`: the trees that can be reached, with their ledgers.
- `Tree.Traced.agrees`: the ledger accounts for the record of every box, and if a node does not
  wait, for the order of its live entries.
-/

namespace FlexStyle

/-- What the application of a node starts from. -/
structure Application where
  table : Table Property
  style : BoxStyle

/-- The last application of every node that has been applied. -/
abbrev Ledger := NodeId → Option Application

namespace Tree

/-- What an application of a node would start from. -/
def application? (t : Tree) (n : NodeId) : Option Application :=
  (t.node? n).bind fun node => (t.store.style? node.box).map fun style => ⟨node.table, style⟩

/-- The ledger with the application of a node. -/
def note (t : Tree) (ledger : Ledger) (n : NodeId) : Ledger :=
  fun m => if m = n then t.application? n else ledger m

/-- The ledger with the applications of nodes, one after another. -/
def noteAll (t : Tree) (ledger : Ledger) : List NodeId → Ledger
  | [] => ledger
  | n :: nodes => (t.apply n).1.noteAll (t.note ledger n) nodes

/-- The ledger after a command. A new node has not been applied. -/
def ledgerAfter (t : Tree) (ledger : Ledger) : Command → Ledger
  | .create => fun m => if m = t.create.1 then none else ledger m
  | .flush root => ((t.flush root).toOption.map fun result => t.noteAll ledger result.2).getD ledger
  | _ => ledger

/-- The trees that come about by commands that are allowed, with their ledgers. -/
inductive Traced (allowed : Tree → Command → Prop) : Tree → Ledger → Prop
  | start (config : Config) (fonts : Fonts) (font : FontId) :
    Traced allowed (.withFont config fonts font) fun _ => none
  | step {t : Tree} {ledger : Ledger} {c : Command} :
    Traced allowed t ledger → allowed t c → Traced allowed (t.after c) (t.ledgerAfter ledger c)

variable {allowed : Tree → Command → Prop} {s t : Tree} {ledger : Ledger} {n : NodeId}
  {node : Node} {style : BoxStyle}

/-- Trees with ledgers can be reached. -/
theorem Traced.reachable (h : Traced allowed t ledger) : Reachable allowed t := by
  induction h with
  | start config fonts font => exact .start config fonts font
  | step _ hallowed ih => exact ih.step hallowed

/-- Every tree that can be reached has a ledger. -/
theorem Reachable.exists_traced (h : Reachable allowed t) : ∃ ledger, Traced allowed t ledger := by
  induction h with
  | start config fonts font => exact ⟨_, .start config fonts font⟩
  | step _ hallowed ih =>
    obtain ⟨ledger, htraced⟩ := ih
    exact ⟨_, htraced.step hallowed⟩

/-! ## Applications -/

/-- Whether the last application of a node, if it has been applied, accounts for the record of its
box and for its live entries. -/
def Accounts (t : Tree) (node : Node) (style : BoxStyle) : Option Application → Prop
  | none => style = t.store.initial ∧ (node.scheduled = false → node.table.liveList = [])
  | some last =>
    last.table.Tidy ∧
      (node.scheduled = false → node.table.liveList = last.table.liveList) ∧
      ∃ metrics, style = (last.table.applyBox metrics t.store.initial last.style).1

/-- Whether a ledger accounts for all boxes of a tree. -/
def Agrees (t : Tree) (ledger : Ledger) : Prop :=
  ∀ n node style, t.node? n = some node → t.store.style? node.box = some style →
    t.Accounts node style (ledger n)

/-- What accounts for a node goes on to do so while the record and the live entries stay. -/
theorem Accounts.of_kept {before after : Node} {last : Option Application}
    (h : s.Accounts before style last) (hinitial : t.store.initial = s.store.initial)
    (hrests : after.scheduled = false → before.scheduled = false)
    (horder : after.scheduled = false → after.table.liveList = before.table.liveList) :
    t.Accounts after style last := by
  cases last with
  | none =>
    obtain ⟨hstyle, hempty⟩ := h
    exact ⟨hstyle.trans hinitial.symm, fun hafter => (horder hafter).trans (hempty (hrests hafter))⟩
  | some last =>
    obtain ⟨htidy, hsame, metrics, hstyle⟩ := h
    refine ⟨htidy, fun hafter => (horder hafter).trans (hsame (hrests hafter)), metrics, ?_⟩
    rw [hinitial, hstyle]

theorem note_of_ne {m : NodeId} (h : m ≠ n) : t.note ledger n m = ledger m := if_neg h

/-- An application is accounted for by what it starts from. -/
theorem agrees_apply (h : t.Sound) (hl : t.Agrees ledger) (n : NodeId) :
    (t.apply n).1.Agrees (t.note ledger n) := by
  rcases apply_cases h n with ⟨hnone, hsame⟩ | ⟨node, style, hnode, hstyle, ha, -⟩
  · rw [hsame]
    intro m after style hafter hstyle
    have hmn : m ≠ n := by
      rintro rfl
      rw [hnone] at hafter
      cases hafter
    rw [note_of_ne hmn]
    exact hl m after style hafter hstyle
  · intro m after style' hafter hstyle'
    rw [ha.style?] at hstyle'
    rcases ha.node_cases hafter with ⟨hmn, rfl⟩ | ⟨hmn, hbefore⟩
    · -- the node that is applied
      rw [if_pos (by rfl)] at hstyle'
      cases hstyle'
      have hlast : t.note ledger n m = some ⟨node.table, style⟩ := by
        rw [note, if_pos hmn, application?, hnode, Option.bind_some, hstyle, Option.map_some]
      rw [hlast]
      refine ⟨h.tidy hnode, fun _ => node.table.liveList_clearEvents, ?_⟩
      exact ⟨(t.foundText n node).metrics t.fonts, by rw [ha.base.initial, foundStyle]⟩
    · -- a node with another box
      have hbox : after.box ≠ node.box := fun heq => hmn (h.apart hbefore hnode heq)
      rw [if_neg hbox] at hstyle'
      rw [note_of_ne hmn]
      exact (hl m after style' hbefore hstyle').of_kept ha.base.initial id fun _ => rfl

/-- So are several applications in turn. -/
theorem agrees_noteAll (h : t.Sound) (hl : t.Agrees ledger) (nodes : List NodeId) :
    (t.applyEach nodes).Agrees (t.noteAll ledger nodes) := by
  induction nodes generalizing t ledger with
  | nil => exact hl
  | cons n nodes ih => exact ih (sound_apply h n) (agrees_apply h hl n)

theorem noteAll_with_queue (queue : List NodeId) (nodes : List NodeId) :
    { t with queue }.noteAll ledger nodes = t.noteAll ledger nodes := by
  induction nodes generalizing t ledger with
  | nil => rfl
  | cons n nodes ih =>
    rw [noteAll, noteAll, apply_with_queue]
    dsimp only
    rw [ih]
    rfl

/-! ## Commands -/

/-- A new box is initial, so that a new node has nothing to account for. -/
theorem agrees_create (h : t.Sound) (hl : t.Agrees ledger) :
    t.create.2.Agrees (t.ledgerAfter ledger .create) := by
  have hinitial : t.create.2.store.initial = t.store.initial := BoxStore.initial_create _
  intro n node style hnode hstyle
  rcases node?_create_cases hnode with ⟨rfl, rfl⟩ | ⟨hne, hbefore⟩
  · rw [style?_create_self h] at hstyle
    cases hstyle
    rw [show t.ledgerAfter ledger .create t.create.1 = none from if_pos rfl]
    exact ⟨hinitial.symm, fun _ => rfl⟩
  · rw [style?_create_of_node? h hbefore] at hstyle
    rw [show t.ledgerAfter ledger .create n = ledger n from if_neg hne]
    exact (hl n node style hbefore hstyle).of_kept hinitial id fun _ => rfl

/-- A flush is a row of applications. -/
theorem agrees_flush (h : t.Sound) (hl : t.Agrees ledger) (root : NodeId) :
    (t.after (.flush root)).Agrees (t.ledgerAfter ledger (.flush root)) := by
  rw [after, ledgerAfter]
  cases hok : t.flush root with
  | error e => exact hl
  | ok result =>
    obtain ⟨t', applied⟩ := result
    obtain ⟨queue, rfl⟩ := flush_eq_applyEach hok
    show ({ t with queue }.applyEach applied).Agrees (t.noteAll ledger applied)
    rw [← noteAll_with_queue queue]
    exact agrees_noteAll (h.with_queue queue) hl applied

/-- Other commands leave records and live entries alone, or schedule the node. -/
theorem agrees_evolves (he : s.Evolves True t) (hs : s.Sound) (hl : s.Agrees ledger) :
    t.Agrees ledger := by
  intro n after style hafter hstyle
  obtain ⟨before, hbefore, hkept⟩ := he.node hafter
  rw [hkept.box, hkept.style?] at hstyle
  exact (hl n before style hbefore hstyle).of_kept (he.initial hs) hkept.rests
    (hkept.order trivial)

/-- If copies report changes, the ledger accounts for all boxes. -/
theorem Traced.agrees (h : Traced Reports t ledger) : t.Agrees ledger := by
  induction h with
  | start config fonts font =>
    intro n node style hnode
    simp [withFont, node?] at hnode
  | @step t ledger c ht hreports ih =>
    have hsound : t.Sound := ht.reachable.sound
    have hcases := after_cases hsound c
    cases c with
    | create => exact agrees_create hsound ih
    | flush root => exact agrees_flush hsound ih root
    | _ =>
      rcases hcases with hc | ⟨root, applied, hc, -⟩ | hevolves
      · cases hc
      · cases hc
      · rw [eq_true hreports] at hevolves
        exact agrees_evolves hevolves hsound ih

end Tree

end FlexStyle
