import FlexStyle.Proofs.Writing
import Mathlib.Data.List.Induction

/-!
# Declarations replace the inline group

Reading declarations clears the inline group and writes them one after another. What counts in the
end is, for each property, the last declaration that has an effect: one whose value the property
takes, or a blank one, which removes the property. The group holds exactly those values, in the
order of these declarations, whatever it held before.

- `Declaration.effect?`: what a declaration does, if anything.
- `lastEffects`, `lastEffect?`: the effects that no later one on the same property replaces;
  `lastEffects_concat` says what one more effect does to them.
- `Table.Holds`, `Table.holds_set`, `Table.holds_run`: a group that holds such effects keeps doing
  so with every further one.
- `Tree.declare_replaces`, `Tree.declare_snd_iff`: reading declarations as writes to one table.
- `Tree.Declares`, `Tree.Reachable.setInlineText_declares`: what a whole text does.
-/

namespace FlexStyle

/-- What an effective declaration asks for: the values that a property shall hold, or none if it
shall be removed. -/
abbrev Effect := Property × List Value

/-- What a declaration asks for. A blank value removes the property; a value that the property does
not take, and a name without a property, have no effect. -/
def Declaration.effect? (d : Declaration) : Option Effect := do
  let p ← Property.ofName? d.property
  if (Raw.text d.value).isUnspecified then return (p, [])
  let values ← p.accept? (Tree.arguments [.text d.value])
  return (p, values)

/-! ## The last effects -/

section Effects

variable {effects : List Effect} {e : Effect} {p : Property}

/-- The effects after which there is no other one on the same property, in order. -/
def lastEffects : List Effect → List Effect
  | [] => []
  | e :: later => if later.any (·.1 = e.1) then lastEffects later else e :: lastEffects later

/-- The values of the last effect on a property. -/
def lastEffect? (effects : List Effect) (p : Property) : Option (List Value) :=
  ((effects.filter (·.1 = p)).getLast?).map (·.2)

/-- One more effect replaces the one on its property, and comes last. -/
theorem lastEffects_concat (effects : List Effect) (e : Effect) :
    lastEffects (effects ++ [e]) = (lastEffects effects).filter (·.1 ≠ e.1) ++ [e] := by
  induction effects with
  | nil => simp [lastEffects]
  | cons first later ih =>
    rw [List.cons_append, lastEffects, lastEffects, List.any_append, ih]
    by_cases hany : later.any (·.1 = first.1) = true
    · simp only [hany, Bool.true_or, if_true]
    · by_cases hkey : e.1 = first.1
      · simp [hany, hkey]
      · simp [hany, hkey, Ne.symm hkey]

theorem lastEffect?_concat (effects : List Effect) (e : Effect) (p : Property) :
    lastEffect? (effects ++ [e]) p = if e.1 = p then some e.2 else lastEffect? effects p := by
  rw [lastEffect?, List.filter_append]
  split
  case isTrue hp => simp [hp]
  case isFalse hp => simp [hp, lastEffect?]

/-- The last effect on a property is among the last effects. -/
theorem mem_lastEffects_iff {values : List Value} :
    (p, values) ∈ lastEffects effects ↔ lastEffect? effects p = some values := by
  induction effects using List.reverseRecOn with
  | nil => simp [lastEffects, lastEffect?]
  | append_singleton before e ih =>
    rw [lastEffects_concat, lastEffect?_concat, List.mem_append, List.mem_filter, ih,
      List.mem_singleton]
    split
    case isTrue hp =>
      subst hp
      simp [Prod.ext_iff, eq_comm]
    case isFalse hp =>
      have hne : (p, values) ≠ e := fun he => hp (by rw [← he])
      simp [hne, Ne.symm hp]

end Effects

/-! ## Tables that hold effects -/

namespace Entry

variable {κ : Type} {a b : Entry κ}

/-- What an entry holds after writes depends on the values that it held before, but not on its
event. -/
theorem values_rewrite_congr (h : a.values = b.values) (asked : List (List Value)) :
    (a.rewrite asked).1.values = (b.rewrite asked).1.values := by
  induction asked generalizing a b with
  | nil => exact h
  | cons values rest ih =>
    simp only [rewrite, foldChanges_cons]
    refine ih ?_
    unfold write clear isRemoved
    rw [h]
    split
    · split <;> simp [h]
    · split <;> simp [h]

end Entry

namespace Table

variable {t : Table Property} {g : Group} {p : Property} {effects : List Effect}

/-- Whether the live entries of a group are, in order, those effects among the last ones that do not
remove their property. -/
def Holds (t : Table Property) (g : Group) (effects : List Effect) : Prop :=
  List.Forall₂ (fun (entry : Entry Property) e => entry.key = e.1 ∧ (entry.values == e.2) = true)
    (t.live g) ((lastEffects effects).filter (!·.2.isEmpty))

theorem live_remove (t : Table Property) (g : Group) (p : Property) :
    (t.remove g p).1.live g = (t.live g).filter (·.key ≠ p) := by
  rw [live, remove, entries_withEntries, if_pos rfl, live, List.filter_map, List.filter_filter]
  induction t.entries g with
  | nil => rfl
  | cons first rest ih =>
    by_cases hkey : first.key = p <;> cases hrem : first.isRemoved <;>
      simp_all [Function.comp_def]

theorem live_set_of_ne_nil (h : t.Keyed) {values : List Value} (hne : values.isEmpty = false) :
    (t.set g p values).1.live g =
      (t.live g).filter (·.key ≠ p) ++ [((t.entry g p).write values).1] := by
  have hlast : ((t.entry g p).write values).1.isRemoved = false := by
    rw [Entry.isRemoved_write, hne]
  rw [set_eq_withEntries h g p hne, live, entries_withEntries, if_pos rfl, List.filter_append, live,
    List.filter_comm]
  simp [hlast]

/-- One more effect: the group goes on to hold the last ones. -/
theorem holds_set (h : t.Keyed) (hholds : t.Holds g effects) {e : Effect}
    (hself : (e.2 == e.2) = true) : (t.set g e.1 e.2).1.Holds g (effects ++ [e]) := by
  -- the entry of the property leaves its place, and so does the effect that it held
  have hrest : List.Forall₂
      (fun (entry : Entry Property) e => entry.key = e.1 ∧ (entry.values == e.2) = true)
      ((t.live g).filter (·.key ≠ e.1))
      (((lastEffects effects).filter (!·.2.isEmpty)).filter (·.1 ≠ e.1)) := by
    refine List.rel_filter (fun entry f hf => ?_) hholds
    simp [hf.1]
  rw [Holds, lastEffects_concat, List.filter_append, List.filter_comm]
  cases hempty : e.2.isEmpty with
  | true =>
    rw [set, if_pos hempty, live_remove]
    simpa [hempty] using hrest
  | false =>
    rw [live_set_of_ne_nil h hempty]
    refine List.rel_append hrest ?_
    rw [List.filter_cons_of_pos (by simp [hempty])]
    refine .cons ⟨?_, ?_⟩ .nil
    · rw [Entry.key_write, key_entry]
    · rcases (t.entry g e.1).sameValues_write e.2 with heq | heq
      · rw [heq, hself]
      · exact heq

/-- Effects as calls of a table. -/
def enact (g : Group) (effects : List Effect) : List (Call Property) :=
  effects.map fun e => .set g e.1 e.2

theorem run_concat (t : Table Property) (calls : List (Call Property)) (c : Call Property) :
    t.run (calls ++ [c]) = ((t.run calls).after c).1 :=
  foldChanges_append_fst _ _ _ _

theorem holds_run (h : t.Keyed) (hempty : t.live g = [])
    (hself : ∀ e ∈ effects, (e.2 == e.2) = true) : (t.run (enact g effects)).Holds g effects := by
  induction effects using List.reverseRecOn with
  | nil =>
    show List.Forall₂ _ (t.live g) _
    rw [hempty]
    exact .nil
  | append_singleton before e ih =>
    rw [enact, List.map_append, List.map_singleton, run_concat]
    exact holds_set (keyed_run h _) (ih fun e' he' => hself e' (List.mem_append_left _ he'))
      (hself e (List.mem_append_right _ (List.mem_singleton_self e)))

/-- Effects on one group leave the others alone. -/
theorem entries_run_enact (effects : List Effect) {g' : Group} (hne : g' ≠ g) :
    (t.run (enact g effects)).entries g' = t.entries g' := by
  induction effects using List.reverseRecOn with
  | nil => rfl
  | append_singleton before e ih =>
    rw [enact, List.map_append, List.map_singleton, run_concat, after, ← enact, ← ih, set]
    split
    · rw [remove, entries_withEntries, if_neg hne]
    · rw [touch, entries_withEntries, if_neg hne]

theorem isRemoved_entry_eq_false_iff :
    (t.entry g p).isRemoved = false ↔ ∃ entry, t.live? g p = some entry := by
  rw [entry, live?]
  cases t.find? g p with
  | none => simp [Entry.isRemoved]
  | some entry => cases hrem : entry.isRemoved <;> simp [hrem]

namespace Holds

/-- The last effect on a property, if it asks for values, is what the property holds. -/
theorem exists_live (hholds : t.Holds g effects) (h : t.Keyed) {values : List Value}
    (hlast : lastEffect? effects p = some values) (hne : values ≠ []) :
    ∃ entry, t.live? g p = some entry ∧ (entry.values == values) = true := by
  have hmem : (p, values) ∈ (lastEffects effects).filter (!·.2.isEmpty) :=
    List.mem_filter.mpr ⟨mem_lastEffects_iff.mpr hlast, by simpa using hne⟩
  obtain ⟨entry, hentry, hkey, hvalues⟩ := exists_mem_of_forall₂ hholds hmem
  exact ⟨entry, (live?_eq_some_iff h).mpr ⟨hentry, hkey⟩, hvalues⟩

/-- What a property holds was asked for by the last effect on it. -/
theorem exists_lastEffect (hholds : t.Holds g effects) (h : t.Keyed) {entry : Entry Property}
    (hlive : t.live? g p = some entry) :
    ∃ values, lastEffect? effects p = some values ∧ values ≠ [] := by
  obtain ⟨hentry, rfl⟩ := (live?_eq_some_iff h).mp hlive
  obtain ⟨e, he, hkey, -⟩ := exists_mem_of_forall₂ hholds.flip hentry
  obtain ⟨hmem, hne⟩ := List.mem_filter.mp he
  refine ⟨e.2, mem_lastEffects_iff.mp ?_, by simpa using hne⟩
  rwa [hkey]

theorem isRemoved_iff (hholds : t.Holds g effects) (h : t.Keyed) (p : Property) :
    (t.entry g p).isRemoved = false ↔
      ∃ values, lastEffect? effects p = some values ∧ values ≠ [] := by
  rw [isRemoved_entry_eq_false_iff]
  constructor
  · rintro ⟨entry, hlive⟩
    exact hholds.exists_lastEffect h hlive
  · rintro ⟨values, hlast, hne⟩
    obtain ⟨entry, hlive, -⟩ := hholds.exists_live h hlast hne
    exact ⟨entry, hlive⟩

/-- What is live in a group that holds effects, by the keys of the effects. -/
theorem liveIn_eq (hholds : t.Holds g effects) (h : t.Keyed) :
    t.liveIn g = ((lastEffects effects).filter (!·.2.isEmpty)).map fun e =>
      (e.1, (t.entry g e.1).values) := by
  have hkeys : t.liveKeys g = ((lastEffects effects).filter (!·.2.isEmpty)).map (·.1) := by
    rw [liveKeys, ← List.forall₂_eq_eq_eq, List.forall₂_map_left_iff, List.forall₂_map_right_iff]
    exact hholds.imp fun _ _ hrow => hrow.1
  have hlive : t.liveIn g = (t.liveKeys g).map fun p => (p, (t.entry g p).values) := by
    rw [liveIn, liveKeys, List.map_map]
    refine List.map_congr_left fun entry hmem => ?_
    rw [Function.comp_apply, Table.entry, find?_of_mem h (List.mem_filter.mp hmem).1]
    rfl
  rw [hlive, hkeys, List.map_map]
  rfl

end Holds

end Table

/-! ## Declarations as effects -/

namespace Declaration

/-- The effects of declarations, in order. -/
def effects (ds : List Declaration) : List Effect := ds.filterMap effect?

theorem effects_cons (d : Declaration) (ds : List Declaration) :
    effects (d :: ds) = d.effect?.toList ++ effects ds := by
  rw [effects, List.filterMap_cons]
  cases d.effect? <;> rfl

variable {d : Declaration} {e : Effect}

/-- An effect is a removal, or stores values that the property takes. -/
theorem effect?_eq_some (h : d.effect? = some e) :
    Property.ofName? d.property = some e.1 ∧
      ((e.2 = [] ∧ (Raw.text d.value).isUnspecified = true) ∨
        ((Raw.text d.value).isUnspecified = false ∧
          e.1.accept? (Tree.arguments [.text d.value]) = some e.2)) := by
  simp only [effect?, bind, Option.bind_eq_some_iff, pure] at h
  obtain ⟨p, hp, h⟩ := h
  cases hblank : (Raw.text d.value).isUnspecified with
  | true =>
    rw [hblank, if_pos rfl, Option.some.injEq] at h
    subst h
    exact ⟨hp, .inl ⟨rfl, rfl⟩⟩
  | false =>
    rw [hblank, if_neg Bool.false_ne_true, Option.bind_eq_some_iff] at h
    obtain ⟨values, haccept, hvalues⟩ := h
    cases hvalues
    exact ⟨hp, .inr ⟨rfl, haccept⟩⟩

theorem beq_self_of_effect? (h : d.effect? = some e) : (e.2 == e.2) = true := by
  rcases (effect?_eq_some h).2 with ⟨hnil, -⟩ | ⟨-, haccept⟩
  · rw [hnil]
    rfl
  · exact Property.beq_self_of_accept? haccept

theorem beq_self_of_mem_effects {ds : List Declaration} (h : e ∈ effects ds) :
    (e.2 == e.2) = true := by
  obtain ⟨d, -, hd⟩ := List.mem_filterMap.mp h
  exact beq_self_of_effect? hd

end Declaration

namespace Tree

variable {s t t' : Tree} {n m : NodeId} {node : Node} {d : Declaration} {e : Effect}
  {ds : List Declaration}

theorem setText_of_ineffective (h : d.effect? = none) (t : Tree) (n : NodeId) (g : Group) :
    t.setText n g d.property d.value = (t, false) := by
  unfold setText set
  simp only [Declaration.effect?, bind] at h
  split
  · rfl
  case h_2 p hp =>
    rw [hp, Option.bind_some] at h
    simp only [List.all_cons, List.all_nil, Bool.and_true]
    split at h
    · cases h
    case isFalse hblank =>
      rw [if_neg hblank]
      have hrefused : p.accept? (arguments [.text d.value]) = none :=
        Option.eq_none_iff_forall_ne_some.mpr (by simpa [pure] using h)
      rw [hrefused]

/-- What the write of an effective declaration does. A removal fails where there is nothing to be
removed. -/
theorem setText_of_effect? (hnode : t.node? n = some node) (h : d.effect? = some e) :
    t.Replaces n (node.table.set .inline e.1 e.2).1
        (t.setText n .inline d.property d.value).1 ∧
      ((t.setText n .inline d.property d.value).2 = true ↔
        (e.2 = [] → (node.table.entry .inline e.1).isRemoved = false)) := by
  obtain ⟨hp, ⟨hnil, hblank⟩ | ⟨hsome, haccept⟩⟩ := Declaration.effect?_eq_some h
  · have hset : t.setText n .inline d.property d.value =
        t.changeTable n (·.remove .inline e.1) := by
      rw [setText, set_of_blank (by simpa using hblank), remove, hp]
    rw [hset, hnil]
    refine ⟨replaces_changeTable hnode (·.remove .inline e.1), ?_⟩
    have hreport : (t.changeTable n (·.remove .inline e.1)).2 =
        (node.table.remove .inline e.1).2 := by rw [changeTable, hnode]
    rw [hreport, Table.remove_snd, Entry.clear]
    split <;> simp [*]
  · have htakes : t.Takes n d.property [.text d.value] e.1 e.2 :=
      ⟨contains_iff.mpr ⟨node, hnode⟩, hp, haccept⟩
    have hne : e.2 ≠ [] := by simpa using Property.isEmpty_of_accept? haccept
    rw [setText, set_of_takes ⟨_, List.mem_cons_self, hsome⟩ htakes]
    have hmodify := Replaces.modify hnode fun other =>
      { other with table := (other.table.set .inline e.1 e.2).1 }
    exact ⟨hmodify.schedule, by simp [hne]⟩

/-- Reading declarations is to write their effects to the table of one node. -/
theorem declare_replaces (hnode : t.node? n = some node) (ds : List Declaration) :
    t.Replaces n (node.table.run (Table.enact .inline (Declaration.effects ds)))
      (t.declare n ds).1 := by
  induction ds generalizing t node with
  | nil => exact .refl hnode
  | cons d rest ih =>
    rw [Declaration.effects_cons, declare]
    cases he : d.effect? with
    | none =>
      rw [setText_of_ineffective he]
      exact ih hnode
    | some e =>
      obtain ⟨hfirst, -⟩ := setText_of_effect? hnode he
      obtain ⟨next, hnext, htable⟩ := hfirst.exists_node
      have hrest := ih hnext
      rw [htable] at hrest
      exact hfirst.trans hrest

/-- Declarations without effect may be left out. -/
theorem declare_filter (t : Tree) (n : NodeId) (ds : List Declaration) :
    (t.declare n (ds.filter (·.effect?.isSome))).1 = (t.declare n ds).1 := by
  induction ds generalizing t with
  | nil => rfl
  | cons d rest ih =>
    cases he : d.effect? with
    | none =>
      rw [List.filter_cons_of_neg (by simp [he]), declare, setText_of_ineffective he]
      exact ih t
    | some e =>
      rw [List.filter_cons_of_pos (by simp [he]), declare, declare]
      exact ih _

/-- All declarations are accepted if each of them is, at its turn. -/
theorem declare_snd_iff (t : Tree) (n : NodeId) (ds : List Declaration) :
    (t.declare n ds).2 = true ↔ ∀ before d after, ds = before ++ d :: after →
      ((t.declare n before).1.setText n .inline d.property d.value).2 = true := by
  induction ds generalizing t with
  | nil => simp [declare]
  | cons first rest ih =>
    rw [declare, Bool.and_eq_true, ih]
    constructor
    · rintro ⟨hfirst, hrest⟩ before d after hds
      cases before with
      | nil =>
        cases hds
        exact hfirst
      | cons _ before =>
        cases hds
        exact hrest before d after rfl
    · intro hall
      refine ⟨hall [] first rest rfl, fun before d after hds => ?_⟩
      exact hall (first :: before) d after (by rw [hds, List.cons_append])

/-! ## Replacing the inline group -/

theorem get?_eq_live? {g : Group} {name : String} {p : Property}
    (hname : Property.ofName? name = some p) (hnode : t.node? n = some node) :
    t.get? n g name = (node.table.live? g p).map (·.values) := by
  simp only [get?, hname, hnode, bind, Option.bind_some, Table.live?]
  cases node.table.find? g p with
  | none => rfl
  | some entry => cases hrem : entry.isRemoved <;> simp [hrem]

/-- What a tree looks like after the inline group of a node was replaced by declarations, and what
the replacement reports. -/
structure Declares (t : Tree) (n : NodeId) (ds : List Declaration) (result : Tree × Bool) :
    Prop where
  /-- A property holds what its last effective declaration asks for, -/
  held : ∀ name p values, Property.ofName? name = some p →
    lastEffect? (Declaration.effects ds) p = some values → values ≠ [] →
      ∃ stored, result.1.get? n .inline name = some stored ∧ (stored == values) = true
  /-- and nothing if that is a removal, or if there is none. -/
  unset : ∀ name p, Property.ofName? name = some p →
    (∀ values, lastEffect? (Declaration.effects ds) p = some values → values = []) →
      result.1.get? n .inline name = none
  /-- The properties that hold anything stand in the order of these declarations. -/
  order : List.Forall₂ (fun held (e : Effect) => held.1 = e.1 ∧ (held.2 == e.2) = true)
    (result.1.inlineEntries n) ((lastEffects (Declaration.effects ds)).filter (!·.2.isEmpty))
  /-- Declarations without effect might as well not be there. -/
  ineffective : result.1 =
    ((t.clear n (some .inline)).1.declare n (ds.filter (·.effect?.isSome))).1
  /-- The other groups of the node are as they were, -/
  groups : ∀ g, g ≠ .inline →
    (result.1.node? n).map (·.table.entries g) = (t.node? n).map (·.table.entries g)
  /-- and so are all other nodes. -/
  others : ∀ m, m ≠ n → result.1.node? m = t.node? m
  /-- Success means that each declaration was accepted at its turn, -/
  accepted : result.2 = true ↔ ∀ before d after, ds = before ++ d :: after →
    (((t.clear n (some .inline)).1.declare n before).1.setText n .inline d.property d.value).2 =
      true
  /-- that is, that each has an effect, and each removal something to be removed. -/
  accepted_iff : result.2 = true ↔ ∀ before d after, ds = before ++ d :: after →
    ∃ e, d.effect? = some e ∧ (e.2 = [] → ∃ values,
      lastEffect? (Declaration.effects before) e.1 = some values ∧ values ≠ [])

/-- After some declarations have been read into a cleared group, the group holds their effects. -/
theorem declare_clear (h : t.Sound) (hnode : t.node? n = some node) (ds : List Declaration) :
    t.Replaces n ((node.table.clear (some .inline)).1.run
        (Table.enact .inline (Declaration.effects ds)))
        ((t.clear n (some .inline)).1.declare n ds).1 ∧
      ((node.table.clear (some .inline)).1.run
        (Table.enact .inline (Declaration.effects ds))).Keyed ∧
      ((node.table.clear (some .inline)).1.run
        (Table.enact .inline (Declaration.effects ds))).Holds .inline (Declaration.effects ds) := by
  have hcleared : t.Replaces n (node.table.clear (some .inline)).1
      (t.clear n (some .inline)).1 := replaces_changeTable hnode (·.clear (some .inline))
  obtain ⟨cleared, hnext, htable⟩ := hcleared.exists_node
  have hdeclared := declare_replaces hnext ds
  rw [htable] at hdeclared
  have hkeyed := Table.keyed_clear (h.tidy hnode).keyed (some .inline)
  refine ⟨hcleared.trans hdeclared, Table.keyed_run hkeyed _, ?_⟩
  exact Table.holds_run hkeyed (node.table.live_clear .inline) fun _ he =>
    Declaration.beq_self_of_mem_effects he

theorem setInlineText_of_node? (hnode : t.node? n = some node) (text : String) :
    t.setInlineText n text = (t.clear n (some .inline)).1.declare n (Declaration.list text) := by
  rw [setInlineText, if_pos (contains_iff.mpr ⟨node, hnode⟩)]

theorem Sound.declares (h : t.Sound) (hnode : t.node? n = some node) (ds : List Declaration) :
    t.Declares n ds ((t.clear n (some .inline)).1.declare n ds) := by
  obtain ⟨hreplaces, hkeyed, hholds⟩ := declare_clear h hnode ds
  obtain ⟨after, hafter, htable⟩ := hreplaces.exists_node
  rw [← htable] at hkeyed hholds
  have haccepted := declare_snd_iff (t.clear n (some .inline)).1 n ds
  refine ⟨fun name p values hname hlast hne => ?_, fun name p hname hnone => ?_, ?_,
    (declare_filter _ n ds).symm, fun g hg => ?_, hreplaces.others, haccepted, ?_⟩
  · obtain ⟨entry, hlive, hvalues⟩ := hholds.exists_live hkeyed hlast hne
    exact ⟨entry.values, by rw [get?_eq_live? hname hafter, hlive]; rfl, hvalues⟩
  · rw [get?_eq_live? hname hafter, Option.map_eq_none_iff]
    by_contra hlive
    obtain ⟨entry, hlive⟩ := Option.ne_none_iff_exists'.mp hlive
    obtain ⟨values, hlast, hne⟩ := hholds.exists_lastEffect hkeyed hlive
    exact hne (hnone values hlast)
  · rw [inlineEntries, hafter]
    exact List.forall₂_map_left_iff.mpr hholds
  · rw [hafter, hnode, Option.map_some, Option.map_some, htable, Table.entries_run_enact _ hg,
      Table.entries_clear, if_neg (by simpa [Group.isIn] using hg.symm)]
  · rw [haccepted]
    refine forall_congr' fun before => forall_congr' fun d => forall_congr' fun later =>
      imp_congr_right fun _ => ?_
    -- at its turn, a declaration finds what those before it have left
    obtain ⟨hbefore, hkeyed, hholds⟩ := declare_clear h hnode before
    obtain ⟨present, hpresent, htable⟩ := hbefore.exists_node
    rw [← htable] at hkeyed hholds
    cases he : d.effect? with
    | none => simp [setText_of_ineffective he]
    | some e =>
      rw [(setText_of_effect? hpresent he).2, hholds.isRemoved_iff hkeyed]
      simp

/-- **Declarations replace the inline group.** After a text was read, each property holds in the
inline group what its last effective declaration asks for, in the order of these declarations. What
the group has held before makes no difference to it, nor to the result, which says whether each
declaration was accepted at its turn. -/
theorem Reachable.setInlineText_declares (h : Reachable AnyCommand t) (hlive : t.contains n = true)
    (text : String) :
    t.Declares n (Declaration.list text) (t.setInlineText n text) ∧
      (∀ d : Declaration, d.effect? = none → ∀ (s : Tree) (m : NodeId),
        s.setText m .inline d.property d.value = (s, false)) ∧
      ∀ (s : Tree) (m : NodeId), Reachable AnyCommand s → s.contains m = true →
        (s.setInlineText m text).1.inlineEntries m = (t.setInlineText n text).1.inlineEntries n ∧
          (s.setInlineText m text).2 = (t.setInlineText n text).2 := by
  obtain ⟨node, hnode⟩ := contains_iff.mp hlive
  have hdeclares := h.sound.declares hnode (Declaration.list text)
  rw [setInlineText_of_node? hnode]
  refine ⟨hdeclares, fun d hd s m => setText_of_ineffective hd s m .inline,
    fun s m hs hm => ?_⟩
  obtain ⟨other, hother⟩ := contains_iff.mp hm
  have hdeclares' := hs.sound.declares hother (Declaration.list text)
  rw [setInlineText_of_node? hother]
  refine ⟨?_, ?_⟩
  · obtain ⟨hreplaces, hkeyed, hholds⟩ := declare_clear h.sound hnode (Declaration.list text)
    obtain ⟨hreplaces', hkeyed', hholds'⟩ := declare_clear hs.sound hother (Declaration.list text)
    obtain ⟨after, hafter, htable⟩ := hreplaces.exists_node
    obtain ⟨after', hafter', htable'⟩ := hreplaces'.exists_node
    rw [inlineEntries, inlineEntries, hafter, hafter', Option.map_some, Option.map_some,
      Option.getD_some, Option.getD_some, htable, htable', hholds.liveIn_eq hkeyed,
      hholds'.liveIn_eq hkeyed']
    refine List.map_congr_left fun e _ => congrArg (e.1, ·) ?_
    -- both entries were without values when the group had been cleared
    rw [Table.entry_run (Table.keyed_clear (h.sound.tidy hnode).keyed _),
      Table.entry_run (Table.keyed_clear (hs.sound.tidy hother).keyed _)]
    refine Entry.values_rewrite_congr ?_ _
    rw [List.isEmpty_iff.mp (Table.isRemoved_entry_clear other.table .inline e.1),
      List.isEmpty_iff.mp (Table.isRemoved_entry_clear node.table .inline e.1)]
  · rw [Bool.eq_iff_iff, hdeclares'.accepted_iff, hdeclares.accepted_iff]

/-- Of two widths that are declared, the second one counts, though it is followed by a third that is
refused; a removal takes back what was declared before it, and fails where there is nothing. -/
theorem setInlineText_declares_width :
    let t := (withFont .default (.ofHost .default fun _ => .fixed 16) .builtIn).run
      [.create, .set ⟨0⟩ .sheet "gap" [.value (.pixels 1)],
        .set ⟨0⟩ .inline "margin" [.value (.pixels 1)]]
    let text := "width: 1px; gap: 2px; height: auto; WIDTH: 3px; width: red; gap: \x0b;"
    t.Declares ⟨0⟩ (Declaration.list text) (t.setInlineText ⟨0⟩ text) ∧
      (t.setInlineText ⟨0⟩ text).1.inlineEntries ⟨0⟩ =
        [(.dimension .height, [.auto]), (.dimension .width, [.pixels 3])] ∧
      (t.setInlineText ⟨0⟩ text).2 = false ∧ (t.setInlineText ⟨0⟩ "margin: \x0b").2 = false := by
  intro t text
  have hreach : Reachable AnyCommand t := (Reachable.start _ _ _).run _
  have hlive : t.contains ⟨0⟩ = true := by decide +kernel
  refine ⟨(hreach.setInlineText_declares hlive text).1, ?_⟩
  decide +kernel

end Tree

end FlexStyle
