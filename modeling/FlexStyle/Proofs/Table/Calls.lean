import FlexStyle.Proofs.Table.Order
import Mathlib.Data.List.Dedup

/-!
# Calls that change a table

The calls of a table as data. To an entry, each of them is a sequence of writes, where an empty list
of values stands for a removal; to the order of a group, it is a list of keys that move to the back.

- `Table.Call`, `Table.after`, `Table.run`: the calls, and a table after one or several.
- `Table.Call.asks`, `Table.Call.touches`: the values that a call asks an entry to hold, and the
  keys that it moves to the back of a group.
- `Table.Follows`, `Table.follows_after`, `Table.follows_run`: entries, orders and reports after a
  call, and after several.
-/

namespace FlexStyle

/-! ## Comparing lists of values -/

theorem Value.beq_self_of_beq {v w : Value} (h : (v == w) = true) : (v == v) = true := by
  have number : ∀ {x y : Single}, (x == y) = true → (x == x) = true := by
    intro x y hxy
    obtain ⟨hx, -, -⟩ := Binary.beq_iff.mp hxy
    exact Binary.beq_iff.mpr ⟨hx, hx, rfl⟩
  change Value.beq v w = true at h
  change Value.beq v v = true
  cases v <;> cases w <;> simp_all [Value.beq] <;> first | exact number h | exact number h.1

theorem values_beq_self {a b : List Value} (h : (a == b) = true) : (a == a) = true := by
  induction a generalizing b with
  | nil => rfl
  | cons v rest ih =>
    cases b with
    | nil => cases h
    | cons w rest' =>
      rw [List.cons_beq_cons, Bool.and_eq_true] at h ⊢
      exact ⟨Value.beq_self_of_beq h.1, ih h.2⟩

/-- Lists that are the same or compare as equal. Neither implies the other: what is not a number
does not equal itself, and the two zeros equal each other. -/
def SameValues (a b : List Value) : Prop := a = b ∨ (a == b) = true

theorem SameValues.isEmpty_eq {a b : List Value} (h : SameValues a b) : a.isEmpty = b.isEmpty := by
  rcases h with rfl | h
  · rfl
  · cases a <;> cases b <;> first | rfl | cases h

namespace Entry

variable {κ : Type}

@[simp] theorem write_nil (entry : Entry κ) : entry.write [] = entry.clear := rfl

/-- What a write asks for is what the entry then holds. -/
theorem sameValues_write (entry : Entry κ) (values : List Value) :
    SameValues (entry.write values).1.values values := by
  cases hempty : values.isEmpty with
  | true =>
    obtain rfl := List.isEmpty_iff.mp hempty
    exact .inl (List.isEmpty_iff.mp entry.isRemoved_clear)
  | false =>
    rw [write_of_ne_nil entry hempty]
    split
    case isTrue heq => exact .inr heq
    case isFalse => exact .inl rfl

/-- An entry counts as removed after a write of no values, and only then. -/
theorem isRemoved_write (entry : Entry κ) (values : List Value) :
    (entry.write values).1.isRemoved = values.isEmpty :=
  (entry.sameValues_write values).isEmpty_eq

/-- A write reports a change exactly if the values before and after it differ. -/
theorem write_snd (entry : Entry κ) (values : List Value) :
    (entry.write values).2 = !(entry.values == (entry.write values).1.values) := by
  cases hempty : values.isEmpty with
  | true =>
    obtain rfl := List.isEmpty_iff.mp hempty
    rw [write_nil, clear]
    cases hvalues : entry.values with
    | nil => simp [isRemoved, hvalues]
    | cons v rest => simp [isRemoved, hvalues]
  | false =>
    rw [write_of_ne_nil entry hempty]
    split
    case isTrue heq => simp [values_beq_self heq]
    case isFalse hne => simp [hne]

/-- The entry after writes of some lists of values, one after another, and whether any of them
changed its values. -/
def rewrite (entry : Entry κ) (asked : List (List Value)) : Entry κ × Bool :=
  foldChanges write entry asked

/-- Two rows of writes are one row. -/
theorem rewrite_append (entry : Entry κ) (first second : List (List Value)) :
    entry.rewrite (first ++ second) =
      (((entry.rewrite first).1.rewrite second).1,
        (entry.rewrite first).2 || ((entry.rewrite first).1.rewrite second).2) := by
  induction first generalizing entry with
  | nil => simp [rewrite]
  | cons values rest ih =>
    have h := ih (entry.write values).1
    simp only [rewrite, List.cons_append, foldChanges_cons] at h ⊢
    rw [h, Bool.or_assoc]

@[simp] theorem rewrite_singleton (entry : Entry κ) (values : List Value) :
    entry.rewrite [values] = entry.write values := by
  simp [rewrite, foldChanges_cons]

@[simp] theorem rewrite_nil (entry : Entry κ) : entry.rewrite [] = (entry, false) := rfl

end Entry

namespace Table

variable {κ : Type}

/-! ## The calls -/

/-- A call that changes a table. -/
inductive Call (κ : Type) where
  | set (g : Group) (key : κ) (values : List Value)
  /-- Values are written to the entry that a lookup for writing gives. -/
  | write (g : Group) (key : κ) (values : List Value)
  /-- The values of the entry that a lookup for writing gives are removed. -/
  | erase (g : Group) (key : κ)
  | remove (g : Group) (key : κ)
  | clear (choice : Option Group)
  | copyFrom (source : Table κ) (choice : Option Group)

/-- The keys of a group in order, those of removed entries included. -/
def keys (t : Table κ) (g : Group) : List κ := (t.entries g).map (·.key)

/-- Whether what a call copies comes from a table in which no group holds a key twice. -/
def Call.Proper : Call κ → Prop
  | .copyFrom source _ => source.Keyed
  | _ => True

variable [DecidableEq κ]

/-- The values that are stored under a key in a group, if any. -/
def valuesAt (t : Table κ) (g : Group) (key : κ) : List Value := (t.entry g key).values

/-- The table after a call, and what the call reports. -/
def after (t : Table κ) : Call κ → Table κ × Bool
  | .set g key values => t.set g key values
  | .write g key values => t.touch g key (·.write values)
  | .erase g key => t.touch g key Entry.clear
  | .remove g key => t.remove g key
  | .clear choice => t.clear choice
  | .copyFrom source choice => t.copyFrom source choice

/-- The table after several calls. -/
def run (t : Table κ) (calls : List (Call κ)) : Table κ := (foldChanges after t calls).1

namespace Call

/-- The keys that a call moves to the back of a group, in order. A removal moves none. -/
def touches (g : Group) : Call κ → List κ
  | .set g' key values => if g' = g ∧ values.isEmpty = false then [key] else []
  | .write g' key _ => if g' = g then [key] else []
  | .erase g' key => if g' = g then [key] else []
  | .remove _ _ => []
  | .clear _ => []
  | .copyFrom source choice => if g.isIn choice then source.liveKeys g else []

/-- What a call asks to be stored under a key of a group: nothing at all where it does not concern
the key, and no values where it removes them. -/
def asks (g : Group) (key : κ) : Call κ → List (List Value)
  | .set g' key' values => if g' = g ∧ key' = key then [values] else []
  | .write g' key' values => if g' = g ∧ key' = key then [values] else []
  | .erase g' key' => if g' = g ∧ key' = key then [[]] else []
  | .remove g' key' => if g' = g ∧ key' = key then [[]] else []
  | .clear choice => if g.isIn choice then [[]] else []
  | .copyFrom source choice =>
    if g.isIn choice then ((source.live g).filter (·.key = key)).map (·.values) else []

end Call

/-! ## Entries after a call -/

variable {t source : Table κ}

/-- Touching writes to the entry of one key, and to no other. -/
theorem entry_touch (h : t.Keyed) {key : κ} {change : Entry κ → Entry κ × Bool}
    (hkey : ∀ entry, (change entry).1.key = entry.key) (g g' : Group) (key' : κ) :
    (t.touch g key change).1.entry g' key' =
      if g = g' ∧ key = key' then (change (t.entry g' key')).1 else t.entry g' key' := by
  rw [entry, find?_touch h hkey]
  by_cases hsame : g' = g ∧ key' = key
  · obtain ⟨rfl, rfl⟩ := hsame
    simp
  · rw [if_neg hsame, if_neg (fun he => hsame ⟨he.1.symm, he.2.symm⟩), entry]

/-- Removal clears the entry of one key, and no other. -/
theorem entry_remove (t : Table κ) (g g' : Group) (key key' : κ) :
    (t.remove g key).1.entry g' key' =
      if g = g' ∧ key = key' then (t.entry g' key').clear.1 else t.entry g' key' := by
  rw [entry, find?_remove, entry]
  by_cases hsame : g' = g ∧ key' = key
  · obtain ⟨rfl, rfl⟩ := hsame
    rw [if_pos ⟨rfl, rfl⟩, if_pos ⟨rfl, rfl⟩]
    cases t.find? g' key' <;> rfl
  · rw [if_neg hsame, if_neg (fun he => hsame ⟨he.1.symm, he.2.symm⟩)]

/-- Clearing clears all entries of the groups that are chosen, and no others. -/
theorem entry_clear (t : Table κ) (choice : Option Group) (g : Group) (key : κ) :
    (t.clear choice).1.entry g key =
      if g.isIn choice then (t.entry g key).clear.1 else t.entry g key := by
  rw [entry, find?_clear, entry]
  split
  · cases t.find? g key <;> rfl
  · rfl

/-- Removal reports whether there were values. -/
theorem remove_snd (t : Table κ) (g : Group) (key : κ) :
    (t.remove g key).2 = (t.entry g key).clear.2 := by
  rw [remove, entry]
  cases t.find? g key with
  | none => rfl
  | some entry => cases hrem : entry.isRemoved <;> simp [Entry.clear, hrem]

/-- A clearing reports a change exactly if it removes the values of some entry. -/
theorem clear_snd_iff (h : t.Keyed) (choice : Option Group) :
    (t.clear choice).2 = true ↔
      ∃ g, g.isIn choice = true ∧ ∃ key, (t.entry g key).clear.2 = true := by
  have hlive : ∀ g, t.live g ≠ [] ↔ ∃ key, (t.entry g key).clear.2 = true := by
    intro g
    constructor
    · intro hne
      obtain ⟨entry, hmem⟩ := List.exists_mem_of_ne_nil _ hne
      obtain ⟨hentry, hrem⟩ := List.mem_filter.mp hmem
      refine ⟨entry.key, ?_⟩
      rw [Table.entry, find?_of_mem h hentry, Option.getD_some, Entry.clear, if_neg]
      simpa using hrem
    · rintro ⟨key, hclear⟩ hnil
      rw [Table.entry] at hclear
      cases hfind : t.find? g key with
      | none => simp [hfind, Entry.clear, Entry.isRemoved] at hclear
      | some entry =>
        have hmem := List.filter_eq_nil_iff.mp hnil entry (mem_of_find? hfind)
        rw [hfind, Option.getD_some, Entry.clear_of_isRemoved (by simpa using hmem)] at hclear
        cases hclear
  rw [← Bool.not_eq_false, clear_snd]
  push Not
  simp only [hlive]

/-! ## What a change amounts to -/

/-- A change of a table, with its report, that amounts to writes to each entry and to moving keys to
the back of their groups. -/
structure Follows (t : Table κ) (result : Table κ × Bool) (asks : Group → κ → List (List Value))
    (touches : Group → List κ) : Prop where
  keyed : result.1.Keyed
  entry : ∀ g key, result.1.entry g key = ((t.entry g key).rewrite (asks g key)).1
  keys : ∀ g, result.1.keys g = (t.keys g ++ touches g).dedup
  report : result.2 = true ↔ ∃ g key, ((t.entry g key).rewrite (asks g key)).2 = true

theorem dedup_dedup_append (l₁ l₂ : List κ) : (l₁.dedup ++ l₂).dedup = (l₁ ++ l₂).dedup := by
  induction l₁ with
  | nil => rfl
  | cons a rest ih =>
    rw [List.cons_append]
    by_cases ha : a ∈ rest
    · rw [List.dedup_cons_of_mem ha, ih, List.dedup_cons_of_mem (List.mem_append_left _ ha)]
    · rw [List.dedup_cons_of_notMem ha, List.cons_append]
      by_cases hb : a ∈ l₂
      · rw [List.dedup_cons_of_mem (List.mem_append_right _ hb), ih,
          List.dedup_cons_of_mem (List.mem_append_right _ hb)]
      · rw [List.dedup_cons_of_notMem (by simp [ha, hb]), ih,
          List.dedup_cons_of_notMem (by simp [ha, hb])]

/-- Keys that are moved to the back leave their old places. -/
theorem dedup_append_of_nodup {keys moved : List κ} (hkeys : keys.Nodup) (hmoved : moved.Nodup) :
    (keys ++ moved).dedup = keys.filter (· ∉ moved) ++ moved := by
  induction keys with
  | nil => exact List.Nodup.dedup hmoved
  | cons first rest ih =>
    obtain ⟨hfirst, hrest⟩ := List.nodup_cons.mp hkeys
    rw [List.cons_append]
    by_cases hmem : first ∈ moved
    · rw [List.dedup_cons_of_mem (List.mem_append_right _ hmem), ih hrest,
        List.filter_cons_of_neg (by simpa using hmem)]
    · rw [List.dedup_cons_of_notMem (by simp [hfirst, hmem]), ih hrest,
        List.filter_cons_of_pos (by simpa using hmem), List.cons_append]

theorem Follows.refl (h : t.Keyed) : t.Follows (t, false) (fun _ _ => []) fun _ => [] where
  keyed := h
  entry _ _ := rfl
  keys g := by
    rw [List.append_nil]
    exact (List.Nodup.dedup (h g)).symm
  report := by simp

/-- Two changes in a row ask for what both ask for, in turn. -/
theorem Follows.trans {first second : Table κ × Bool}
    {asks₁ asks₂ : Group → κ → List (List Value)} {touches₁ touches₂ : Group → List κ}
    (h₁ : t.Follows first asks₁ touches₁) (h₂ : first.1.Follows second asks₂ touches₂) :
    t.Follows (second.1, first.2 || second.2) (fun g key => asks₁ g key ++ asks₂ g key)
      fun g => touches₁ g ++ touches₂ g where
  keyed := h₂.keyed
  entry g key := by rw [h₂.entry, h₁.entry, Entry.rewrite_append]
  keys g := by rw [h₂.keys, h₁.keys, dedup_dedup_append, List.append_assoc]
  report := by
    rw [Bool.or_eq_true, h₁.report, h₂.report]
    simp only [Entry.rewrite_append, Bool.or_eq_true, exists_or, h₁.entry]

/-- Changes one after another amount to all that each of them amounts to. -/
theorem follows_foldChanges {α : Type} {step : Table κ → α → Table κ × Bool}
    {asks : α → Group → κ → List (List Value)} {touches : α → Group → List κ} {items : List α}
    (hstep : ∀ a ∈ items, ∀ t : Table κ, t.Keyed → t.Follows (step t a) (asks a) (touches a))
    (h : t.Keyed) :
    t.Follows (foldChanges step t items) (fun g key => items.flatMap (asks · g key))
      fun g => items.flatMap (touches · g) := by
  -- on the items, with the table left open; that its keys stay apart is handed on
  induction items generalizing t with
  | nil => exact Follows.refl h
  | cons a rest ih =>
    have hfirst := hstep a List.mem_cons_self t h
    exact hfirst.trans (ih (fun b hb => hstep b (List.mem_cons_of_mem _ hb)) hfirst.keyed)

/-! ## What each call amounts to -/

/-- The entry of one key alone is asked for something. -/
theorem exists_rewrite_iff {g : Group} {key : κ} {values : List Value} :
    (∃ g' key', ((t.entry g' key').rewrite
        (if g = g' ∧ key = key' then [values] else [])).2 = true) ↔
      ((t.entry g key).write values).2 = true := by
  constructor
  · rintro ⟨g', key', hreport⟩
    split at hreport
    case isTrue heq =>
      obtain ⟨rfl, rfl⟩ := heq
      rwa [Entry.rewrite_singleton] at hreport
    case isFalse => cases hreport
  · intro hreport
    exact ⟨g, key, by simpa using hreport⟩

/-- The order of a group is kept by what keeps its entries apart from their values. -/
theorem keys_eq_dedup (h : t.Keyed) {t' : Table κ} {g : Group} (hkeys : t'.keys g = t.keys g) :
    t'.keys g = (t.keys g ++ []).dedup := by
  rw [List.append_nil, hkeys]
  exact (List.Nodup.dedup (h g)).symm

/-- Touching asks for one write, and moves the key. -/
theorem follows_touch (h : t.Keyed) (g : Group) (key : κ) (values : List Value) :
    t.Follows (t.touch g key (·.write values))
      (fun g' key' => (Call.write g key values).asks g' key')
      fun g' => (Call.write g key values).touches g' where
  keyed := keyed_touch h fun entry => entry.key_write values
  entry g' key' := by
    rw [entry_touch h fun entry => entry.key_write values, Call.asks]
    split
    · rw [Entry.rewrite_singleton]
    · rfl
  keys g' := by
    rw [keys, entries_touch h, Call.touches]
    by_cases hg : g' = g
    · subst hg
      rw [if_pos rfl, if_pos rfl, keys, dedup_append_of_nodup (h g') (List.nodup_singleton key),
        List.map_append, List.filter_map]
      simp [Entry.key_write, key_entry, Function.comp_def]
    · rw [if_neg hg, if_neg (Ne.symm hg)]
      exact keys_eq_dedup h rfl
  report := exists_rewrite_iff.symm

/-- Removal asks for no values, and moves no key. -/
theorem follows_remove (h : t.Keyed) (g : Group) (key : κ) :
    t.Follows (t.remove g key) (fun g' key' => (Call.remove g key).asks g' key')
      fun g' => (Call.remove g key).touches g' where
  keyed := keyed_remove h g key
  entry g' key' := by
    rw [entry_remove, Call.asks]
    split
    · rw [Entry.rewrite_singleton, Entry.write_nil]
    · rfl
  keys g' := by
    refine keys_eq_dedup h ?_
    rw [keys, remove, entries_withEntries]
    split
    case isTrue hg =>
      subst hg
      rw [List.map_map, keys]
      refine List.map_congr_left fun entry _ => ?_
      rw [Function.comp_apply]
      split
      · exact entry.key_clear
      · rfl
    case isFalse => rfl
  report := by
    rw [remove_snd, ← Entry.write_nil]
    exact exists_rewrite_iff.symm

/-- Setting asks for the values, and moves the key unless it removes them. -/
theorem follows_set (h : t.Keyed) (g : Group) (key : κ) (values : List Value) :
    t.Follows (t.set g key values) (fun g' key' => (Call.set g key values).asks g' key')
      fun g' => (Call.set g key values).touches g' := by
  cases hempty : values.isEmpty with
  | true =>
    obtain rfl := List.isEmpty_iff.mp hempty
    simpa [set, Call.asks, Call.touches] using follows_remove h g key
  | false =>
    have := follows_touch h g key values
    simpa [set, hempty, Call.asks, Call.touches] using this

/-- Clearing asks for no values wherever there are some, and moves no key. -/
theorem follows_clear (h : t.Keyed) (choice : Option Group) :
    t.Follows (t.clear choice) (fun g key => (Call.clear choice).asks g key)
      fun g => (Call.clear choice).touches g where
  keyed := keyed_clear h choice
  entry g key := by
    rw [entry_clear, Call.asks]
    split
    · rw [Entry.rewrite_singleton, Entry.write_nil]
    · rfl
  keys g := by
    refine keys_eq_dedup h ?_
    rw [keys, entries_clear]
    split
    · rw [List.map_map, keys]
      exact List.map_congr_left fun entry _ => entry.key_clear
    · rfl
  report := by
    rw [clear_snd_iff h]
    refine exists_congr fun g => ?_
    cases hg : g.isIn choice <;> simp [Call.asks, hg]

/-- The entries that a copy takes over, with their groups. -/
def copied (source : Table κ) (choice : Option Group) : List (Group × Entry κ) :=
  source.list.filter fun item => item.1.isIn choice && !item.2.isRemoved

omit [DecidableEq κ] in
/-- What a copy takes over for a group are the live entries of that group. -/
theorem flatMap_copied {β : Type} (source : Table κ) (choice : Option Group) (g : Group)
    (pick : Entry κ → List β) :
    ((source.copied choice).flatMap fun item => if item.1 = g then pick item.2 else []) =
      if g.isIn choice then (source.live g).flatMap pick else [] := by
  have hnil : ∀ entries : List (Entry κ), entries.flatMap (fun _ => ([] : List β)) = [] :=
    fun _ => List.flatMap_eq_nil_iff.mpr fun _ _ => rfl
  unfold copied list live
  rw [List.filter_flatMap, List.flatMap_assoc]
  cases hg : g.isIn choice <;> cases g <;>
    simp [Group.applicationOrder, List.filter_map, List.flatMap_map, Function.comp_def, hg, hnil]

theorem flatMap_values (key : κ) (entries : List (Entry κ)) :
    (entries.flatMap fun entry => if entry.key = key then [entry.values] else []) =
      (entries.filter (·.key = key)).map (·.values) := by
  induction entries with
  | nil => rfl
  | cons first rest ih =>
    rw [List.flatMap_cons, ih, List.filter_cons]
    by_cases hkey : first.key = key <;> simp [hkey]

omit [DecidableEq κ] in
theorem flatMap_keys {entries : List (Entry κ)} (h : ∀ entry ∈ entries, entry.isRemoved = false) :
    (entries.flatMap fun entry => if entry.values.isEmpty = false then [entry.key] else []) =
      entries.map (·.key) := by
  induction entries with
  | nil => rfl
  | cons first rest ih =>
    have hfirst : first.values.isEmpty = false := h first List.mem_cons_self
    rw [List.flatMap_cons, ih fun entry hmem => h entry (List.mem_cons_of_mem _ hmem),
      if_pos hfirst]
    rfl

/-- A copy is made of the writes of what is live in the source. -/
theorem follows_copyFrom (h : t.Keyed) (source : Table κ) (choice : Option Group) :
    t.Follows (t.copyFrom source choice) (fun g key => (Call.copyFrom source choice).asks g key)
      fun g => (Call.copyFrom source choice).touches g := by
  have hasks : ∀ g key, (Call.copyFrom source choice).asks g key =
      (source.copied choice).flatMap fun item =>
        (Call.set item.1 item.2.key item.2.values).asks g key := by
    intro g key
    simp only [Call.asks, ite_and]
    rw [flatMap_copied source choice g fun entry =>
      if entry.key = key then [entry.values] else [], flatMap_values]
  have htouches : ∀ g, (Call.copyFrom source choice).touches g =
      (source.copied choice).flatMap fun item =>
        (Call.set item.1 item.2.key item.2.values).touches g := by
    intro g
    have hlive : ∀ entry ∈ source.live g, entry.isRemoved = false :=
      fun entry hmem => by simpa using (List.mem_filter.mp hmem).2
    simp only [Call.touches, ite_and]
    rw [flatMap_copied source choice g fun entry =>
      if entry.values.isEmpty = false then [entry.key] else [], flatMap_keys hlive, liveKeys]
  -- the copy is a fold of `set` over what is copied
  simp only [hasks, htouches]
  exact follows_foldChanges
    (fun item _ t h => follows_set h item.1 item.2.key item.2.values) h

/-- Every call amounts to the writes that it asks for. -/
theorem follows_after (h : t.Keyed) (c : Call κ) :
    t.Follows (t.after c) (fun g key => c.asks g key) fun g => c.touches g := by
  cases c with
  | set g key values => exact follows_set h g key values
  | write g key values => exact follows_touch h g key values
  | erase g key => exact follows_touch h g key []
  | remove g key => exact follows_remove h g key
  | clear choice => exact follows_clear h choice
  | copyFrom source choice => exact follows_copyFrom h source choice

/-- What calls one after another amount to. -/
theorem follows_run (h : t.Keyed) (calls : List (Call κ)) :
    t.Follows (foldChanges after t calls) (fun g key => calls.flatMap (·.asks g key))
      fun g => calls.flatMap (·.touches g) :=
  follows_foldChanges (fun c _ _ h => follows_after h c) h

omit [DecidableEq κ] in
theorem keyed_empty : ({} : Table κ).Keyed := fun g => by simp

theorem keyed_run (h : t.Keyed) (calls : List (Call κ)) : (t.run calls).Keyed :=
  (follows_run h calls).keyed

/-- The entry of a key after calls is the one that all that is asked of it in turn leads to. -/
theorem entry_run (h : t.Keyed) (calls : List (Call κ)) (g : Group) (key : κ) :
    (t.run calls).entry g key =
      ((t.entry g key).rewrite (calls.flatMap (·.asks g key))).1 :=
  (follows_run h calls).entry g key

end Table

end FlexStyle
