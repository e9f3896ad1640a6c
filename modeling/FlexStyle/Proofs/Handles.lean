import FlexStyle.Proofs.Housing
import FlexStyle.Proofs.Removal
import FlexStyle.Tree.Handle

/-!
# Handles of removed nodes

The node of a handle is looked up by the slot alone. As long as the node is there, the slot holds no
other, so that its handle leads to it and to nothing else. Once the node has been removed the slot
may be given to another node, and the old handle then leads to that one, although it is not its
handle. Until then, the tree has no use for the handle.

- `HandledTree.Fits`: how the slots of an arena go together with the nodes of the tree.
  `HandledTree.Reachable.fits` says that they always do.
- `HandledTree.Reachable.existsUnique_handle`: every node has one handle.
- `HandledTree.Outlived`: a handle whose node has been removed. `HandledTree.Outlived.after` says
  that no command changes that.
- `HandledTree.Reachable.rejects_removed_iff`: the handles of removed nodes are rejected as long as
  no other node has been put into their slots.
-/

namespace FlexStyle

/-! ## Putting nodes into slots -/

namespace Arena

/-- What it means that a node has been put into the slot of a handle, which no other node needs. -/
structure Takes (a : Arena) (n : NodeId) (h : Handle) (a' : Arena) : Prop where
  slots : ∀ i, a'.slots[i]? = if i = h.slot then some ⟨h.stamp, n⟩ else a.slots[i]?
  vacant : ∀ i, i ∈ a'.vacant ↔ i ∈ a.vacant ∧ i ≠ h.slot
  free : h.slot ∈ a.vacant ∨ a.slots[h.slot]? = none
  stamp : ∀ {e : ArenaSlot}, a.slots[h.slot]? = some e → e.stamp < h.stamp

/-- A new node takes a vacant slot, or a slot of its own. -/
theorem takes_insert (a : Arena) (n : NodeId) (hvacant : ∀ i ∈ a.vacant, i < a.slots.size) :
    a.Takes n (a.insert n).1 (a.insert n).2 := by
  unfold insert
  cases hpick : a.reuse.pick a.vacant with
  | some i =>
    have hmem := a.reuse.mem_of_pick hpick
    refine ⟨fun j => ?_, fun j => ?_, .inl hmem, fun {e} he => ?_⟩
    · show (a.slots.setIfInBounds i _)[j]? = _
      rw [Array.getElem?_setIfInBounds, if_pos (hvacant i hmem)]
      exact if_congr eq_comm rfl rfl
    · show j ∈ a.vacant.filter _ ↔ _
      rw [List.mem_filter, decide_eq_true_iff]
    · show e.stamp < a.slots[i]?.elim 0 (·.stamp + 1)
      rw [he]
      exact Nat.lt_succ_self _
  | none =>
    refine ⟨fun j => Array.getElem?_push, fun j => ?_, .inr ?_, fun {e} he => ?_⟩
    · exact (and_iff_left_of_imp fun hj heq => Nat.lt_irrefl _ (heq ▸ hvacant j hj)).symm
    · exact Array.getElem?_eq_none (Nat.le_refl _)
    · rw [Array.getElem?_eq_none (Nat.le_refl _)] at he
      cases he

end Arena

/-! ## Runs -/

namespace HandledTree

variable {s : HandledTree} {h : Handle} {n m : NodeId}

/-- The tree and its arena after a command. A call with handles is the command on the nodes that
they lead to. -/
def after (s : HandledTree) : Command → HandledTree
  | .create => s.create.2
  | .removeSubtree n => (s.removeSubtree n).toOption.getD s
  | c => { s with tree := s.tree.after c }

/-- The tree and its arena after some commands in turn. -/
def run (s : HandledTree) (commands : List Command) : HandledTree := commands.foldl after s

/-- What commands lead to, from a tree without nodes. -/
inductive Reachable : HandledTree → Prop
  | start (reuse : Reuse) (config : Config) (fonts : Fonts) (font : FontId) :
    Reachable (.withFont reuse config fonts font)
  | step {s : HandledTree} (c : Command) : Reachable s → Reachable (s.after c)

theorem after_removeSubtree_cases (s : HandledTree) (n : NodeId) :
    (s.tree.contains n = false ∧ s.after (.removeSubtree n) = s) ∨
      ∃ t', s.tree.removeSubtree n = .ok t' ∧
        s.after (.removeSubtree n) = ⟨t', s.arena.vacate (s.tree.shape.treeAt n).toList⟩ := by
  rw [after, removeSubtree]
  cases hn : s.tree.contains n with
  | false =>
    refine .inl ⟨rfl, ?_⟩
    rw [Tree.removeSubtree, hn]
    rfl
  | true =>
    rw [Tree.removeSubtree_of_contains hn]
    exact .inr ⟨_, rfl, rfl⟩

/-- An arena has no part in what becomes of the tree. -/
@[simp] theorem tree_after (s : HandledTree) (c : Command) : (s.after c).tree = s.tree.after c := by
  cases c with
  | removeSubtree n =>
    rw [Tree.after]
    rcases s.after_removeSubtree_cases n with ⟨hn, hsame⟩ | ⟨t', hok, heq⟩
    · rw [hsame, Tree.removeSubtree, hn]
      rfl
    · rw [heq, hok]
      rfl
  | _ => rfl

theorem Reachable.tree (hs : s.Reachable) : Tree.Reachable Tree.AnyCommand s.tree := by
  induction hs with
  | start reuse config fonts font => exact .start config fonts font
  | step c _ ih =>
    rw [tree_after]
    exact ih.step trivial

theorem Reachable.run (hs : s.Reachable) (commands : List Command) :
    (s.run commands).Reachable := by
  induction commands generalizing s with
  | nil => exact hs
  | cons c commands ih => exact ih (hs.step c)

/-! ## Slots and nodes -/

/-- Whether a handle is the one that a node has been given, and its slot has not been given to
another node since then. -/
def IsHandle (s : HandledTree) (h : Handle) (n : NodeId) : Prop :=
  s.arena.slots[h.slot]? = some ⟨h.stamp, n⟩

/-- How the slots of an arena go together with the nodes of a tree. -/
structure Fits (s : HandledTree) : Prop where
  issued : ∀ {i : Nat} {e : ArenaSlot}, s.arena.slots[i]? = some e →
    e.node.number < s.tree.nodes.size
  /-- No node has been put into two slots. -/
  apart : ∀ {i j : Nat} {e e' : ArenaSlot}, s.arena.slots[i]? = some e →
    s.arena.slots[j]? = some e' → e.node = e'.node → i = j
  placed : ∀ {n : NodeId}, s.tree.contains n = true → ∃ h, s.IsHandle h n
  /-- The slots of removed nodes are those that are vacant. -/
  vacant : ∀ i, i ∈ s.arena.vacant ↔
    ∃ e, s.arena.slots[i]? = some e ∧ s.tree.contains e.node = false

/-- The handle of a node leads to it as long as no other node has its slot. -/
theorem IsHandle.lookup (hh : s.IsHandle h n) : s.lookup h = n := by
  rw [HandledTree.lookup, hh]
  rfl

theorem Fits.lt_size (hs : s.Fits) {i : Nat} (hi : i ∈ s.arena.vacant) :
    i < s.arena.slots.size := by
  obtain ⟨e, he, -⟩ := (hs.vacant i).mp hi
  exact (Array.getElem?_eq_some_iff.mp he).1

/-- The slot of a node is found where it was put. -/
theorem Fits.slotOf?_eq_some_iff (hs : s.Fits) {i : Nat} :
    s.arena.slotOf? n = some i ↔ ∃ e, s.arena.slots[i]? = some e ∧ e.node = n := by
  rw [Arena.slotOf?, Array.findIdx?_eq_some_iff_getElem]
  constructor
  · rintro ⟨hi, hnode, -⟩
    exact ⟨_, Array.getElem?_eq_getElem hi, of_decide_eq_true hnode⟩
  · rintro ⟨e, he, rfl⟩
    obtain ⟨hi, rfl⟩ := Array.getElem?_eq_some_iff.mp he
    refine ⟨hi, decide_eq_true rfl, fun j hj hnode => ?_⟩
    -- the slot is the only one that the node has been put into
    have hsame := hs.apart (Array.getElem?_eq_getElem (Nat.lt_trans hj hi)) he (of_decide_eq_true hnode)
    exact Nat.ne_of_lt hj hsame

theorem fits_withFont (reuse : Reuse) (config : Config) (fonts : Fonts) (font : FontId) :
    (withFont reuse config fonts font).Fits where
  issued he := by cases he
  apart he := by cases he
  placed hn := by cases hn
  vacant i := ⟨fun hi => (List.not_mem_nil hi).elim, fun ⟨_, he, _⟩ => by cases he⟩

/-- No slot holds the next node. -/
theorem Fits.ne_create (hs : s.Fits) {i : Nat} {e : ArenaSlot}
    (he : s.arena.slots[i]? = some e) : e.node ≠ s.tree.create.1 := by
  intro heq
  have hlt := hs.issued he
  rw [heq] at hlt
  exact Nat.lt_irrefl _ hlt

theorem Fits.takes_create (hs : s.Fits) :
    s.arena.Takes s.tree.create.1 s.create.1 s.create.2.arena :=
  s.arena.takes_insert s.tree.create.1 fun _ => hs.lt_size

/-- The slot of a node that is there is neither vacant nor new. -/
theorem Fits.slot_ne_create (hs : s.Fits) (hh : s.IsHandle h n)
    (hn : s.tree.contains n = true) : h.slot ≠ s.create.1.slot := by
  intro heq
  rcases hs.takes_create.free with hfree | hfree
  · obtain ⟨e, he, hgone⟩ := (hs.vacant _).mp hfree
    rw [← heq] at he
    cases hh.symm.trans he
    exact Bool.false_ne_true (hgone.symm.trans hn)
  · rw [← heq, hh] at hfree
    cases hfree

/-- A new node is put into a slot whose node has been removed, or into a new one. -/
theorem fits_create (hs : s.Fits) : s.create.2.Fits := by
  have htakes := hs.takes_create
  have hcontains : ∀ m, s.create.2.tree.contains m = _ := s.tree.contains_create
  have hsize : s.create.2.tree.nodes.size = s.tree.nodes.size + 1 := Array.size_push _
  constructor
  case issued =>
    intro i e he
    rw [hsize]
    rw [htakes.slots] at he
    split at he
    · cases he
      exact Nat.lt_succ_self _
    · exact Nat.lt_succ_of_lt (hs.issued he)
  case apart =>
    intro i j e e' he he' hsame
    rw [htakes.slots] at he he'
    split at he <;> split at he'
    · rename_i hi hj
      exact hi.trans hj.symm
    · cases he
      exact absurd hsame.symm (hs.ne_create he')
    · cases he'
      exact absurd hsame (hs.ne_create he)
    · exact hs.apart he he' hsame
  case placed =>
    intro m hm
    rw [hcontains] at hm
    split at hm
    case isTrue heq =>
      refine ⟨s.create.1, ?_⟩
      rw [IsHandle, htakes.slots, if_pos rfl, heq]
    case isFalse =>
      obtain ⟨h, hh⟩ := hs.placed hm
      refine ⟨h, ?_⟩
      rw [IsHandle, htakes.slots, if_neg (hs.slot_ne_create hh hm)]
      exact hh
  case vacant =>
    intro i
    rw [htakes.vacant, htakes.slots, hs.vacant]
    by_cases hi : i = s.create.1.slot
    · rw [if_pos hi]
      refine ⟨fun h => absurd hi h.2, ?_⟩
      rintro ⟨e, he, hgone⟩
      cases he
      rw [hcontains, if_pos rfl] at hgone
      cases hgone
    · rw [if_neg hi, and_iff_left hi]
      refine exists_congr fun e => and_congr_right fun he => ?_
      rw [hcontains, if_neg (hs.ne_create he)]

/-- The slots of the nodes that are removed become vacant, and no others. -/
theorem fits_removeSubtree (hs : s.Fits) (hsound : s.tree.Sound) {t' : Tree}
    (hok : s.tree.removeSubtree n = .ok t') :
    Fits ⟨t', s.arena.vacate (s.tree.shape.treeAt n).toList⟩ := by
  have hcontains : ∀ m, t'.contains m =
      if m ∈ (s.tree.shape.treeAt n).toList then false else s.tree.contains m := by
    intro m
    rw [Tree.contains, Tree.node?_removeSubtree hsound hok, Tree.contains]
    split <;> rfl
  constructor
  case issued =>
    intro i e he
    rw [(Tree.edits_removeSubtree hok).size]
    exact hs.issued he
  case apart => exact hs.apart
  case placed =>
    intro m hm
    rw [hcontains] at hm
    split at hm
    · cases hm
    · exact hs.placed hm
  case vacant =>
    intro i
    show i ∈ s.arena.vacant ++ _ ↔ ∃ e, s.arena.slots[i]? = some e ∧ t'.contains e.node = false
    rw [List.mem_append, hs.vacant, List.mem_filterMap]
    constructor
    · rintro (⟨e, he, hgone⟩ | ⟨m, hm, hslot⟩)
      · refine ⟨e, he, ?_⟩
        rw [hcontains, hgone, ite_self]
      · obtain ⟨e, he, rfl⟩ := hs.slotOf?_eq_some_iff.mp hslot
        exact ⟨e, he, by rw [hcontains, if_pos hm]⟩
    · rintro ⟨e, he, hgone⟩
      rw [hcontains] at hgone
      split at hgone
      case isTrue hm => exact .inr ⟨e.node, hm, hs.slotOf?_eq_some_iff.mpr ⟨e, he, rfl⟩⟩
      case isFalse => exact .inl ⟨e, he, hgone⟩

theorem arena_after (s : HandledTree) (c : Command) :
    c = .create ∨ (∃ n, c = .removeSubtree n) ∨ (s.after c).arena = s.arena := by
  cases c with
  | create => exact .inl rfl
  | removeSubtree n => exact .inr (.inl ⟨n, rfl⟩)
  | _ => exact .inr (.inr rfl)

/-- The other commands neither add nor remove nodes, and leave the arena as it is. -/
theorem after_cases (s : HandledTree) (hsound : s.tree.Sound) (c : Command) :
    c = .create ∨ (∃ n, c = .removeSubtree n) ∨
      ((s.after c).arena = s.arena ∧ (s.after c).tree.nodes.size = s.tree.nodes.size ∧
        ∀ m, (s.after c).tree.contains m = s.tree.contains m) := by
  rw [tree_after]
  rcases s.tree.writes_after c with rfl | ⟨root, rfl⟩ | ⟨n, rfl⟩ | rfl | hwrites
  · exact .inl rfl
  · refine .inr (.inr ⟨rfl, ?_⟩)
    rcases s.tree.after_flush_cases root with hsame | ⟨applied, hok⟩
    · rw [hsame]
      exact ⟨rfl, fun _ => rfl⟩
    · exact ⟨Tree.size_flush hsound hok, Tree.contains_flush hsound hok⟩
  · exact .inr (.inl ⟨n, rfl⟩)
  · exact .inr (.inr ⟨rfl, rfl, fun _ => rfl⟩)
  · exact (s.arena_after c).imp_right (.imp_right fun harena =>
      ⟨harena, hwrites.edits.size, hwrites.contains⟩)

/-- No command brings the slots and the nodes apart. -/
theorem fits_after (hs : s.Fits) (hsound : s.tree.Sound) (c : Command) : (s.after c).Fits := by
  rcases s.after_cases hsound c with rfl | ⟨n, rfl⟩ | ⟨harena, hsize, hcontains⟩
  · exact fits_create hs
  · rcases s.after_removeSubtree_cases n with ⟨-, hsame⟩ | ⟨t', hok, heq⟩
    · rwa [hsame]
    · rw [heq]
      exact fits_removeSubtree hs hsound hok
  · constructor <;> simp only [IsHandle, harena, hsize, hcontains]
    case issued => exact hs.issued
    case apart => exact hs.apart
    case placed => exact hs.placed
    case vacant => exact hs.vacant

/-- The slots of an arena always fit the nodes of its tree. -/
theorem Reachable.fits (hs : s.Reachable) : s.Fits := by
  induction hs with
  | start reuse config fonts font => exact fits_withFont reuse config fonts font
  | step c hs ih => exact fits_after ih hs.tree.sound c

/-- A handle leads to a node exactly if its slot is not vacant. -/
theorem Reachable.contains_iff (hs : s.Reachable) (h : Handle) :
    s.contains h = true ↔ h.slot < s.arena.slots.size ∧ h.slot ∉ s.arena.vacant := by
  rw [contains, HandledTree.lookup]
  by_cases hlt : h.slot < s.arena.slots.size
  · have he := Array.getElem?_eq_getElem hlt
    rw [he, hs.fits.vacant, and_iff_right hlt, he]
    simp
  · rw [Array.getElem?_eq_none (Nat.not_lt.mp hlt), iff_false_right fun h => hlt h.1]
    simp [Tree.contains, Tree.node?]

/-- Every node has one handle, which leads to it. -/
theorem Reachable.existsUnique_handle (hs : s.Reachable) (hn : s.tree.contains n = true) :
    ∃ h, (s.IsHandle h n ∧ s.lookup h = n) ∧ ∀ h', s.IsHandle h' n → h' = h := by
  obtain ⟨h, hh⟩ := hs.fits.placed hn
  refine ⟨h, ⟨hh, hh.lookup⟩, fun h' hh' => ?_⟩
  have hslot : h'.slot = h.slot := hs.fits.apart hh' hh rfl
  rw [IsHandle, hslot, hh] at hh'
  cases h
  cases h'
  cases hslot
  cases hh'
  rfl

/-! ## Removed nodes -/

/-- A handle whose node has been removed: its slot holds that node still, or a later one. -/
structure Outlived (s : HandledTree) (h : Handle) (n : NodeId) : Prop where
  gone : s.tree.Gone n
  slot : ∃ e, s.arena.slots[h.slot]? = some e ∧
    (h.stamp = e.stamp ∧ e.node = n ∨ h.stamp < e.stamp)

/-- Once its node has been removed, no node is given the handle again. -/
theorem Outlived.not_isHandle (ho : s.Outlived h n) (hm : s.tree.contains m = true) :
    ¬ s.IsHandle h m := by
  intro hh
  obtain ⟨e, he, hstamp⟩ := ho.slot
  cases hh.symm.trans he
  rcases hstamp with ⟨-, rfl⟩ | hlt
  · rw [ho.gone.contains] at hm
    cases hm
  · exact Nat.lt_irrefl _ hlt

/-- The stamps of a slot only grow. -/
theorem Outlived.after (ho : s.Outlived h n) (hs : s.Reachable) (c : Command) :
    (s.after c).Outlived h n := by
  refine ⟨s.tree_after c ▸ Tree.gone_after hs.tree.sound ho.gone c, ?_⟩
  rcases s.arena_after c with rfl | ⟨root, rfl⟩ | harena
  · have htakes := hs.fits.takes_create
    rw [HandledTree.after, htakes.slots]
    by_cases hslot : h.slot = s.create.1.slot
    · obtain ⟨e, he, hstamp⟩ := ho.slot
      have hle : h.stamp ≤ e.stamp := hstamp.elim (fun h => Nat.le_of_eq h.1) Nat.le_of_lt
      rw [if_pos hslot]
      exact ⟨_, rfl, .inr (Nat.lt_of_le_of_lt hle (htakes.stamp (hslot ▸ he)))⟩
    · rw [if_neg hslot]
      exact ho.slot
  · rcases s.after_removeSubtree_cases root with ⟨-, hsame⟩ | ⟨t', -, heq⟩
    · rw [hsame]
      exact ho.slot
    · rw [heq]
      exact ho.slot
  · rw [harena]
    exact ho.slot

/-- A removed node stays removed, and its slot keeps stamps that are no less. -/
theorem Outlived.run (ho : s.Outlived h n) (hs : s.Reachable) (commands : List Command) :
    (s.run commands).Outlived h n := by
  induction commands generalizing s with
  | nil => exact ho
  | cons c commands ih => exact ih (ho.after hs c) (hs.step c)

/-- Removal outlives the handles of all nodes that go with the node. -/
theorem outlived_removeSubtree (hs : s.Reachable) (hn : s.tree.contains n = true)
    (hm : n ∈ s.tree.shape.path m) (hh : s.IsHandle h m) :
    (s.after (.removeSubtree n)).Outlived h m := by
  rcases s.after_removeSubtree_cases n with ⟨hmissing, -⟩ | ⟨t', hok, heq⟩
  · rw [hmissing] at hn
    cases hn
  · rw [heq]
    exact ⟨Tree.gone_removeSubtree hs.tree.sound hok hm, _, hh, .inl ⟨rfl, rfl⟩⟩

/-! ## Rejection -/

/-- Whether a tree has no use for a handle, as it has none for the node that the handle leads to. -/
def Rejects (s : HandledTree) (h : Handle) : Prop := s.tree.Rejects (s.lookup h)

/-- Whether the slot of a handle is taken by a node with another handle. -/
def SlotTaken (s : HandledTree) (h : Handle) : Prop :=
  ∃ stamp n, stamp ≠ h.stamp ∧ s.IsHandle ⟨h.slot, stamp⟩ n ∧ s.tree.contains n = true

/-- A command on what a tree has no use for changes neither the tree nor its arena. -/
theorem Rejects.after (hr : s.Rejects h) (c : Command) (hc : s.lookup h ∈ c.names) :
    s.after c = s := by
  have htree : s.tree.after c = s.tree := Tree.Rejects.after hr c hc
  cases c with
  | create => cases hc
  | removeSubtree n =>
    cases List.mem_singleton.mp hc
    rw [HandledTree.after, HandledTree.removeSubtree, hr.removeSubtree]
    rfl
  | _ => exact congrArg (HandledTree.mk · s.arena) htree

/-- A handle whose node has been removed is rejected as long as its slot is not taken. -/
theorem Outlived.rejects_iff (ho : s.Outlived h n) (hs : s.Reachable) :
    s.Rejects h ↔ ¬ s.SlotTaken h := by
  rw [Rejects, Tree.rejects_iff hs.tree.sound]
  constructor
  · rintro hmissing ⟨stamp, k, -, hh, hk⟩
    -- the stamp of the handle is not looked at
    have hlookup : s.lookup h = k := hh.lookup
    rw [hlookup, hk] at hmissing
    cases hmissing
  · intro hfree
    obtain ⟨e, he, -⟩ := ho.slot
    have hlookup : s.lookup h = e.node := by rw [HandledTree.lookup, he]; rfl
    rw [hlookup, Bool.eq_false_iff]
    -- a node in the slot would have another handle
    intro hlive
    refine hfree ⟨e.stamp, e.node, fun heq => ho.not_isHandle hlive ?_, he, hlive⟩
    rw [IsHandle, he, ← heq]

/-- **When the handles of removed nodes are rejected.** After a subtree has been removed, and
whatever the host goes on to do, the handles of its nodes are rejected exactly if their slots have
not been taken by other nodes, and commands on them change nothing then. The handles are never given
to other nodes again. -/
theorem Reachable.rejects_removed_iff (hs : s.Reachable) (hn : s.tree.contains n = true)
    (hm : n ∈ s.tree.shape.path m) (hh : s.IsHandle h m) (commands : List Command) :
    let t := (s.after (.removeSubtree n)).run commands
    (t.Rejects h ↔ ¬ t.SlotTaken h) ∧
      (t.Rejects h → ∀ c : Command, t.lookup h ∈ c.names → t.after c = t) ∧
      ∀ k, t.tree.contains k = true → ¬ t.IsHandle h k := by
  intro t
  have hremoved := hs.step (.removeSubtree n)
  have ho : t.Outlived h m := (outlived_removeSubtree hs hn hm hh).run hremoved commands
  exact ⟨ho.rejects_iff (hremoved.run commands), Rejects.after, fun _ => ho.not_isHandle⟩

/-- Two nodes are removed and one is created, which takes the slot of the first of them: the handle
of the other one is rejected still, until its slot is taken as well. -/
theorem rejects_removed_iff_child :
    let s := (withFont .oldest .default (.ofHost .default fun _ => .fixed 16) .builtIn).run
      [.create, .create, .append ⟨0⟩ ⟨1⟩]
    s.tree.contains ⟨0⟩ = true ∧ ⟨0⟩ ∈ s.tree.shape.path ⟨1⟩ ∧ s.IsHandle ⟨1, 0⟩ ⟨1⟩ ∧
      ((s.after (.removeSubtree ⟨0⟩)).run [.create]).Rejects ⟨1, 0⟩ ∧
      ¬ ((s.after (.removeSubtree ⟨0⟩)).run [.create, .create]).Rejects ⟨1, 0⟩ := by
  intro s
  have hreach : s.Reachable := (Reachable.start _ _ _ _).run _
  have hroot : s.tree.contains ⟨0⟩ = true := by decide +kernel
  have hbeneath : ⟨0⟩ ∈ s.tree.shape.path ⟨1⟩ := by decide +kernel
  have hhandle : s.IsHandle ⟨1, 0⟩ ⟨1⟩ :=
    show s.arena.slots[1]? = some ⟨0, ⟨1⟩⟩ by decide +kernel
  have hiff := fun commands => (hreach.rejects_removed_iff hroot hbeneath hhandle commands).1
  refine ⟨hroot, hbeneath, hhandle, (hiff _).mpr ?_, fun hr => (hiff _).mp hr ?_⟩
  · rintro ⟨stamp, n, hstamp, hh, -⟩
    have hslot : ((s.after (.removeSubtree ⟨0⟩)).run [.create]).arena.slots[1]? =
        some ⟨0, ⟨1⟩⟩ := by
      decide +kernel
    cases hslot.symm.trans hh
    exact hstamp rfl
  · refine ⟨1, ⟨3⟩, Nat.one_ne_zero, ?_, by decide +kernel⟩
    show ((s.after (.removeSubtree ⟨0⟩)).run [.create, .create]).arena.slots[1]? = some ⟨1, ⟨3⟩⟩
    decide +kernel

/-- The handle of a removed node may lead to a later node: after a creation, the removal of the node
and another creation, a tree still has a node for the first handle. -/
theorem not_every_removed_handle_is_rejected :
    ¬ ∀ (s : HandledTree) (h : Handle) (n m : NodeId) (commands : List Command),
      s.Reachable → s.tree.contains n = true → n ∈ s.tree.shape.path m → s.IsHandle h m →
      ((s.after (.removeSubtree n)).run commands).Rejects h := by
  intro hall
  let s := (withFont .oldest .default (.ofHost .default fun _ => .fixed 16) .builtIn).run [.create]
  have hhandle : s.IsHandle ⟨0, 0⟩ ⟨0⟩ :=
    show s.arena.slots[0]? = some ⟨0, ⟨0⟩⟩ by decide +kernel
  have hrejects := hall s ⟨0, 0⟩ ⟨0⟩ ⟨0⟩ [.create] ((Reachable.start _ _ _ _).run _)
    (by decide +kernel) (by decide +kernel) hhandle
  have hcontains : ((s.after (.removeSubtree ⟨0⟩)).run [.create]).contains ⟨0, 0⟩ = true := by
    decide +kernel
  exact Bool.false_ne_true (hrejects.contains.symm.trans hcontains)

end HandledTree

end FlexStyle
