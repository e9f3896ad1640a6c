import FlexStyle.Proofs.InlineText
import FlexStyle.Proofs.Tree.Edits

/-!
# Writes are all or nothing

A write looks up the name, reads the arguments and asks for the node before it changes anything, and
then changes two places, the table of the node and the queue. So it fails at several places, but
always as a whole: what reports a failure leaves the tree as it was.

- `Property.beq_self_of_accept?`: values that a property takes equal themselves, so that they are
  what is stored in the end, whatever was stored before.
- `Tree.modify_eq_self`, `Tree.changeTable_eq_self`: changes that change nothing.
- `Tree.Refuses`: writes that report a failure leave the tree as it was.
- `Tree.Takes`, `Tree.Stores`: when values are taken, and what the tree looks like then.
- `Tree.Reachable.set_all_or_nothing`: both, and what blank input does.
-/

namespace FlexStyle

/-! ## Values that are taken -/

/-- A value in range equals itself: its number is one. -/
theorem Value.beq_self_of_inRange {v : Value} (h : v.inRange = true) : (v == v) = true := by
  have number : ∀ {x : Single}, x.isFinite = true → (x == x) = true := fun hx =>
    Binary.beq_iff.mpr ⟨Binary.isNaN_of_isFinite hx, Binary.isNaN_of_isFinite hx, rfl⟩
  change Value.beq v v = true
  cases v with
  | number x => exact number h
  | ratio x => exact number ((Bool.and_eq_true _ _).mp h).1
  | percentage x => exact number ((Bool.and_eq_true _ _).mp h).1
  | length x unit =>
    rw [Value.beq, number ((Bool.and_eq_true _ _).mp h).1]
    simp
  | _ => simp [Value.beq]

/-- Also an infinite ratio, the one value out of range that is accepted, equals itself. -/
theorem Raw.beq_self_of_toValue? {raw : Raw} {kind : Kind} {v : Value}
    (h : raw.toValue? kind = some v) : (v == v) = true := by
  cases hrange : v.inRange with
  | true => exact Value.beq_self_of_inRange hrange
  | false =>
    have hout : kind = .ratio ∧ raw.Overflows := by
      by_contra hfits
      rw [(inRange_toValue?_iff h).mpr hfits] at hrange
      cases hrange
    obtain ⟨rfl, hoverflows⟩ := hout
    rw [eq_infinite_of_overflows h hoverflows]
    decide +kernel

theorem values_beq_self_of_forall {values : List Value} (h : ∀ v ∈ values, (v == v) = true) :
    (values == values) = true := by
  induction values with
  | nil => rfl
  | cons v rest ih =>
    rw [List.cons_beq_cons, h v List.mem_cons_self, Bool.true_and]
    exact ih fun w hw => h w (List.mem_cons_of_mem _ hw)

namespace Property

variable {p : Property} {arguments : List Raw} {values : List Value}

theorem beq_self_of_accept? (h : p.accept? arguments = some values) :
    (values == values) = true := by
  obtain ⟨pattern, -, hread⟩ := List.exists_of_findSome?_eq_some h
  refine values_beq_self_of_forall fun v hv => ?_
  obtain ⟨raw, -, hvalue⟩ := exists_mem_of_forall₂ (Pattern.toValue?_of_read? hread) hv
  exact Raw.beq_self_of_toValue? hvalue

/-- No property takes a row without arguments. -/
theorem isEmpty_of_accept? (h : p.accept? arguments = some values) : values.isEmpty = false := by
  have hne : ∀ pattern ∈ p.patterns, pattern ≠ [] := by
    cases p <;> simp [patterns, List.replicate]
  obtain ⟨pattern, hpattern, hfits⟩ := Admits.fits ⟨arguments, h⟩
  cases hfits with
  | nil => exact absurd rfl (hne [] hpattern)
  | cons => rfl

end Property

/-! ## Tables -/

/-- A write of values gives a table whose entry of the key stands at the back of its group. -/
theorem Table.set_eq_withEntries {t : Table Property} (h : t.Keyed) (g : Group) (p : Property)
    {values : List Value} (hne : values.isEmpty = false) :
    (t.set g p values).1 =
      t.withEntries g ((t.entries g).filter (·.key ≠ p) ++ [((t.entry g p).write values).1]) := by
  refine ext_entries fun g' => ?_
  rw [set, hne, entries_withEntries]
  exact entries_touch h g g' p (·.write values)

namespace Tree

variable {t : Tree} {n : NodeId} {g : Group} {name : String} {p : Property} {node : Node}

/-! ## Changes that change nothing -/

theorem modify_eq_self {change : Node → Node}
    (h : ∀ node, t.node? n = some node → change node = node) : t.modify n change = t := by
  have hnodes : t.nodes.modify n.number (Option.map change) = t.nodes := by
    refine Array.ext_getElem? fun i => ?_
    rw [Array.getElem?_modify]
    split
    case isTrue hi =>
      subst hi
      cases hslot : t.nodes[n.number]? with
      | none => rfl
      | some slot =>
        cases slot with
        | none => rfl
        | some node =>
          have hnode : t.node? n = some node := by rw [node?, hslot]; rfl
          simp [h node hnode]
    case isFalse => rfl
  rw [modify, hnodes]

/-- A change that reports nothing, and then gives the table back, leaves the tree as it was. -/
theorem changeTable_eq_self {change : Table Property → Table Property × Bool}
    (hchange : ∀ node, t.node? n = some node → (change node.table).2 = false →
      (change node.table).1 = node.table)
    (hfalse : (t.changeTable n change).2 = false) : (t.changeTable n change).1 = t := by
  cases hnode : t.node? n with
  | none => rw [changeTable, hnode]
  | some node =>
    have hreport : (change node.table).2 = false := by
      rwa [changeTable, hnode] at hfalse
    have htable := hchange node hnode hreport
    have hsame : (t.modify n fun other => { other with table := (change node.table).1 }) = t := by
      refine modify_eq_self fun other hother => ?_
      cases hnode.symm.trans hother
      rw [htable]
    rw [changeTable, hnode]
    simp only [hreport, hsame, Bool.false_eq_true, if_false]

/-- Writes to a node that report a failure leave the tree as it was: tables with order and events,
flags, queue and boxes. -/
structure Refuses (t : Tree) (n : NodeId) : Prop where
  set : ∀ g name values, (t.set n g name values).2 = false → (t.set n g name values).1 = t
  setText : ∀ g name text, (t.setText n g name text).2 = false → (t.setText n g name text).1 = t
  remove : ∀ g name, (t.remove n g name).2 = false → (t.remove n g name).1 = t
  clear : ∀ choice, (t.clear n choice).2 = false → (t.clear n choice).1 = t
  setFont : ∀ font, (t.setFont n font).2 = false → (t.setFont n font).1 = t

theorem Sound.remove_eq_self (h : t.Sound) (hfalse : (t.remove n g name).2 = false) :
    (t.remove n g name).1 = t := by
  unfold remove at hfalse ⊢
  split
  · rfl
  case h_2 p hp =>
    rw [hp] at hfalse
    exact changeTable_eq_self (fun node hnode => Table.remove_of_false (h.tidy hnode).keyed) hfalse

theorem Sound.set_eq_self (h : t.Sound) {values : List Raw}
    (hfalse : (t.set n g name values).2 = false) : (t.set n g name values).1 = t := by
  revert hfalse
  unfold set
  split
  · exact fun _ => rfl
  · split
    · exact h.remove_eq_self
    · split
      · exact nofun
      · exact fun _ => rfl

theorem Sound.refuses (h : t.Sound) (n : NodeId) : t.Refuses n where
  set _ _ _ := h.set_eq_self
  setText _ _ _ := h.set_eq_self
  remove _ _ := h.remove_eq_self
  clear _ := changeTable_eq_self fun _ _ => Table.clear_of_false
  setFont font := by
    unfold setFont
    split
    · exact fun _ => rfl
    · split
      · exact fun _ => rfl
      · exact nofun

/-! ## What a property holds -/

theorem get?_of_node? (hname : Property.ofName? name = some p) (hnode : t.node? n = some node) :
    t.get? n g name =
      if (node.table.entry g p).isRemoved then none else some (node.table.entry g p).values := by
  cases hfind : node.table.find? g p <;>
    simp [get?, hname, hnode, hfind, Table.entry, Entry.isRemoved]

/-- A removal succeeds exactly if the property is set. -/
theorem remove_snd_iff :
    (t.remove n g name).2 = true ↔ ∃ values, t.get? n g name = some values := by
  unfold remove
  cases hname : Property.ofName? name with
  | none => simp [get?, hname]
  | some p =>
    cases hnode : t.node? n with
    | none => simp [get?, hname, hnode, changeTable]
    | some node =>
      have hreport : (t.changeTable n (·.remove g p)).2 = (node.table.remove g p).2 := by
        rw [changeTable, hnode]
      rw [get?_of_node? hname hnode]
      show (t.changeTable n (·.remove g p)).2 = true ↔ _
      rw [hreport, Table.remove_snd, Entry.clear]
      split <;> simp

theorem get?_remove : (t.remove n g name).1.get? n g name = none := by
  cases hname : Property.ofName? name with
  | none => simp [get?, hname]
  | some p =>
    unfold remove
    rw [hname]
    show (t.changeTable n (·.remove g p)).1.get? n g name = none
    cases hnode : t.node? n with
    | none => simp [get?, changeTable, hname, hnode]
    | some node =>
      obtain ⟨after, hafter, htable⟩ := (replaces_changeTable hnode (·.remove g p)).exists_node
      have hrem : (after.table.entry g p).isRemoved = true := by
        rw [htable, Table.entry_remove, if_pos ⟨rfl, rfl⟩]
        exact Entry.isRemoved_clear _
      rw [get?_of_node? hname hafter, if_pos hrem]

/-! ## Values that are written -/

/-- Whether a node is there, and a property of the given name takes the arguments of a write, as the
values `stored`. -/
structure Takes (t : Tree) (n : NodeId) (name : String) (values : List Raw) (p : Property)
    (stored : List Value) : Prop where
  contains : t.contains n = true
  name : Property.ofName? name = some p
  accept? : p.accept? (arguments values) = some stored

/-- What a tree looks like after values have been written to a property of a node. -/
structure Stores (t : Tree) (n : NodeId) (g : Group) (p : Property) (values : List Value)
    (t' : Tree) : Prop where
  /-- The property holds values that equal them. -/
  held : ∀ name, Property.ofName? name = some p →
    ∃ stored, t'.get? n g name = some stored ∧ (stored == values) = true
  /-- The entry of the property is the last one of its group. All other entries, in this group and
  in the other ones, are as they were and in the same order, and so is what else the node holds,
  apart from its flag. -/
  node : ∃ node entry, t.node? n = some node ∧ entry.key = p ∧ (entry.values == values) = true ∧
    t'.node? n = some { node with
      table := node.table.withEntries g ((node.table.entries g).filter (·.key ≠ p) ++ [entry])
      scheduled := true }
  others : ∀ m, m ≠ n → t'.node? m = t.node? m
  /-- Neither the shape has changed nor any box. -/
  same : t.SameApartFromNodes t'
  boxes : ∀ m, t'.boxStyle? m = t.boxStyle? m
  scheduled : t'.isScheduled n = true
  queue : t'.queue = if t.isScheduled n then t.queue else t.queue ++ [n]

theorem queue_schedule (hnode : t.node? n = some node) :
    (t.schedule n).queue = if t.isScheduled n then t.queue else t.queue ++ [n] := by
  have hlive : t.contains n = true := contains_iff.mpr ⟨node, hnode⟩
  rw [schedule, hlive]
  cases t.isScheduled n <;> rfl

/-- What a write of values does that are taken. -/
theorem set_of_takes {values : List Raw} {stored : List Value}
    (hsome : ∃ raw ∈ values, raw.isUnspecified = false) (h : t.Takes n name values p stored) :
    t.set n g name values = ((t.modify n fun node =>
      { node with table := (node.table.set g p stored).1 }).schedule n, true) := by
  have hall : values.all (·.isUnspecified) = false := by simpa using hsome
  simp only [set, h.name, hall, h.accept?, h.contains, Bool.false_eq_true, if_false]

theorem Writes.boxStyle? {s : Tree} (h : s.Writes t) (m : NodeId) :
    t.boxStyle? m = s.boxStyle? m := by
  have hstyle : ∀ t : Tree, t.boxStyle? m = (t.box? m).bind t.store.style? := fun t => by
    rw [Tree.boxStyle?, Tree.box?, Option.bind_map]
    rfl
  rw [hstyle, hstyle, h.box?, h.store]

theorem Sound.stores (h : t.Sound) (g : Group) {values : List Raw} {stored : List Value}
    (hsome : ∃ raw ∈ values, raw.isUnspecified = false) (htakes : t.Takes n name values p stored) :
    t.Stores n g p stored (t.set n g name values).1 := by
  obtain ⟨node, hnode⟩ := contains_iff.mp htakes.contains
  have hset := set_of_takes (g := g) hsome htakes
  have hne := Property.isEmpty_of_accept? htakes.accept?
  -- the entry holds what was written, or what equals it
  have hvalues : (((node.table.entry g p).write stored).1.values == stored) = true := by
    rcases (node.table.entry g p).sameValues_write stored with heq | heq
    · rw [heq]
      exact Property.beq_self_of_accept? htakes.accept?
    · exact heq
  have hafter : (t.set n g name values).1.node? n = some { node with
      table := (node.table.set g p stored).1
      scheduled := true } := by
    rw [hset, node?_schedule, if_pos rfl, node?_modify, if_pos rfl, hnode]
    rfl
  have hmodified : (t.modify n fun node =>
      { node with table := (node.table.set g p stored).1 }).node? n =
        some { node with table := (node.table.set g p stored).1 } := by
    rw [node?_modify, if_pos rfl, hnode]
    rfl
  refine ⟨?_, ?_, ?_, ?_, (writes_set t n g name values).boxStyle?, ?_, ?_⟩
  · intro other hother
    refine ⟨((node.table.entry g p).write stored).1.values, ?_, hvalues⟩
    have hentry : (node.table.set g p stored).1.entry g p =
        ((node.table.entry g p).write stored).1 := by
      rw [(Table.follows_set (h.tidy hnode).keyed g p stored).entry]
      simp [Table.Call.asks]
    rw [get?_of_node? hother hafter, hentry, Entry.isRemoved_write, hne]
    rfl
  · refine ⟨node, ((node.table.entry g p).write stored).1, hnode, ?_, hvalues, ?_⟩
    · rw [Entry.key_write, Table.key_entry]
    · rw [hafter, Table.set_eq_withEntries (h.tidy hnode).keyed g p hne]
  · intro m hm
    rw [hset, node?_schedule, if_neg hm, node?_modify, if_neg hm]
  · rw [hset]
    exact (t.modify_same n _).trans (schedule_same _ n)
  · rw [isScheduled_of_node? hafter]
  · rw [hset, queue_schedule hmodified, isScheduled_of_node? hmodified, isScheduled_of_node? hnode]
    rfl

/-- Values are written exactly if they are taken. -/
theorem set_snd_iff {values : List Raw} (hsome : ∃ raw ∈ values, raw.isUnspecified = false) :
    (t.set n g name values).2 = true ↔ ∃ p stored, t.Takes n name values p stored := by
  constructor
  · intro htrue
    have hall : values.all (·.isUnspecified) = false := by simpa using hsome
    unfold set at htrue
    split at htrue
    · cases htrue
    case h_2 p hname =>
      rw [hall, if_neg Bool.false_ne_true] at htrue
      split at htrue
      case h_1 stored haccept hlive => exact ⟨p, stored, hlive, hname, haccept⟩
      case h_2 => cases htrue
  · rintro ⟨p, stored, htakes⟩
    rw [set_of_takes hsome htakes]

/-- Input that is blank as a whole is a removal. -/
theorem set_of_blank {values : List Raw} (hblank : ∀ raw ∈ values, raw.isUnspecified = true) :
    t.set n g name values = t.remove n g name := by
  have hall : values.all (·.isUnspecified) = true := List.all_eq_true.mpr hblank
  unfold set
  split
  case h_1 hname => rw [remove, hname]
  case h_2 => rw [if_pos hall]

/-- **A write is all or nothing.** What fails leaves the whole tree as it was. Input that is not
blank is written exactly if the node is there and the property takes it; then the property holds it,
its entry is the last one of its group, the node waits, and nothing else has changed. Blank input is
a removal, which succeeds exactly if the property is set. -/
theorem Reachable.set_all_or_nothing (h : Reachable AnyCommand t) (n : NodeId) :
    t.Refuses n ∧ ∀ (g : Group) (name : String) (values : List Raw),
      ((∃ raw ∈ values, raw.isUnspecified = false) →
        ((t.set n g name values).2 = true ↔ ∃ p stored, t.Takes n name values p stored) ∧
          ∀ p stored, t.Takes n name values p stored →
            t.Stores n g p stored (t.set n g name values).1) ∧
      ((∀ raw ∈ values, raw.isUnspecified = true) →
        t.set n g name values = t.remove n g name ∧
          ((t.set n g name values).2 = true ↔ ∃ held, t.get? n g name = some held) ∧
            (t.set n g name values).1.get? n g name = none) := by
  refine ⟨h.sound.refuses n, fun g name values => ⟨fun hsome => ?_, fun hblank => ?_⟩⟩
  · exact ⟨set_snd_iff hsome, fun p stored => h.sound.stores g hsome⟩
  · have hset : t.set n g name values = t.remove n g name := set_of_blank hblank
    refine ⟨hset, ?_, ?_⟩
    · rw [hset]
      exact remove_snd_iff
    · rw [hset]
      exact get?_remove

/-- A margin is written over another one and moves behind a width, a word that no margin takes is
refused, and a blank text removes the margin. -/
theorem set_all_or_nothing_margin :
    let t := (withFont .default (.ofHost .default fun _ => .fixed 16) .builtIn).run
      [.create, .create, .set ⟨0⟩ .inline "margin" [.value (.pixels 1)],
        .set ⟨0⟩ .inline "width" [.value .auto], .flush ⟨0⟩]
    t.isScheduled ⟨0⟩ = false ∧
      (∃ stored, t.Stores ⟨0⟩ .inline (.edges .margin) stored
        (t.set ⟨0⟩ .inline "margin" [.text " 2px  auto"]).1) ∧
      (t.set ⟨0⟩ .inline "margin" [.text "2px red"]).1 = t ∧
      (t.set ⟨0⟩ .inline "margin" [.text " "]).2 = true := by
  intro t
  have hreach : Reachable AnyCommand t := (Reachable.start _ _ _).run _
  obtain ⟨hrefuses, hset⟩ := hreach.set_all_or_nothing ⟨0⟩
  obtain ⟨hrests, hlive, haccept, hfails, hheld⟩ :
      t.isScheduled ⟨0⟩ = false ∧ t.contains ⟨0⟩ = true ∧
        ((Property.edges .margin).accept? (arguments [.text " 2px  auto"])).isSome = true ∧
          (t.set ⟨0⟩ .inline "margin" [.text "2px red"]).2 = false ∧
            (t.get? ⟨0⟩ .inline "margin").isSome = true := by
    decide +kernel
  obtain ⟨stored, haccept⟩ := Option.isSome_iff_exists.mp haccept
  refine ⟨hrests, ⟨stored, ?_⟩, hrefuses.set _ _ _ hfails, ?_⟩
  · refine ((hset .inline "margin" [.text " 2px  auto"]).1 ⟨_, List.mem_cons_self, ?_⟩).2 _ _
      ⟨hlive, ?_, haccept⟩
    · decide +kernel
    · decide +kernel
  · refine ((hset .inline "margin" [.text " "]).2 fun raw hraw => ?_).2.1.mpr
      (Option.isSome_iff_exists.mp hheld)
    cases List.mem_singleton.mp hraw
    decide +kernel

end Tree

end FlexStyle
