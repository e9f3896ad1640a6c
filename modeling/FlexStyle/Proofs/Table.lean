import FlexStyle.Property
import FlexStyle.Table
import Mathlib.Data.List.Nodup

/-!
# Tables as maps

A table in which no group holds a key twice is a map from groups and keys to entries. This module
says what each change of a table does to that map, and which properties of entries survive it.

- `Table.Keyed`: no group holds a key twice.
- `Table.find?_touch`, `Table.find?_remove`, `Table.find?_clear`: the map after a change.
- `Entry.wasLive`: whether an entry held values when its event was last cleared. The event tells,
  and no write and no removal changes the answer (`Entry.wasLive_write`, `Entry.wasLive_clear`).
-/

namespace FlexStyle

/-! ## Entries -/

namespace Entry

variable {κ : Type}

/-- Whether the entry held values when its event was last cleared. -/
def wasLive (entry : Entry κ) : Bool :=
  match entry.event with
  | .none => !entry.isRemoved
  | .created => false
  | .updated => true
  | .removed => true

/-- Whether the event of an entry without values is one that such an entry may have. -/
def Fits (entry : Entry κ) : Prop :=
  entry.isRemoved = true → entry.event = .none ∨ entry.event = .removed

@[simp] theorem key_clear (entry : Entry κ) : entry.clear.1.key = entry.key := by
  unfold clear
  split <;> rfl

/-- An entry keeps its key when it is written. -/
theorem key_write (entry : Entry κ) (values : List Value) :
    (entry.write values).1.key = entry.key := by
  unfold write
  split
  · exact entry.key_clear
  · split <;> rfl

/-- An entry that is cleared counts as removed. -/
@[simp] theorem isRemoved_clear (entry : Entry κ) : entry.clear.1.isRemoved = true := by
  unfold clear
  split
  · assumption
  · rfl

/-- Clearing what has been removed changes nothing, and reports so. -/
theorem clear_of_isRemoved {entry : Entry κ} (h : entry.isRemoved = true) :
    entry.clear = (entry, false) := by
  rw [clear, if_pos h]

/-- Writing values reports a change exactly if the entry does not hold them already. -/
theorem write_of_ne_nil (entry : Entry κ) {values : List Value} (h : values.isEmpty = false) :
    entry.write values =
      if entry.values == values then (entry, false)
      else ({ entry with values, event := entry.event.onWrite !entry.isRemoved }, true) := by
  rw [write, h]
  rfl

/-- A write that changes nothing finds equal values. -/
theorem write_eq_self {entry : Entry κ} {values : List Value} (h : values.isEmpty = false)
    (hsame : (entry.write values).2 = false) :
    (entry.write values).1 = entry ∧ (entry.values == values) = true := by
  rw [write_of_ne_nil entry h] at hsame ⊢
  split at hsame
  case isTrue heq => exact ⟨by rw [if_pos heq], heq⟩
  case isFalse => cases hsame

/-- Clearing does not change whether an entry held values when its event was last cleared. -/
theorem wasLive_clear (entry : Entry κ) : entry.clear.1.wasLive = entry.wasLive := by
  unfold clear
  split
  case isTrue => rfl
  case isFalse h =>
    unfold wasLive
    cases entry.event <;> simp_all [Event.onClear, isRemoved]

/-- Writing does not change whether an entry held values when its event was last cleared. -/
theorem wasLive_write (entry : Entry κ) (values : List Value) :
    (entry.write values).1.wasLive = entry.wasLive := by
  unfold write
  split
  case isTrue => exact entry.wasLive_clear
  case isFalse h =>
    split
    case isTrue => rfl
    case isFalse =>
      unfold wasLive
      cases hev : entry.event <;> cases hrem : entry.isRemoved <;>
        simp_all [Event.onWrite, isRemoved]

/-- An entry that is cleared has an event that it may have. -/
theorem fits_clear {entry : Entry κ} (h : entry.Fits) : entry.clear.1.Fits := by
  unfold clear
  split
  case isTrue => exact h
  case isFalse =>
    intro _
    cases entry.event <;> simp [Event.onClear]

/-- An entry that is written has an event that it may have. -/
theorem fits_write {entry : Entry κ} (h : entry.Fits) {values : List Value} :
    (entry.write values).1.Fits := by
  unfold write
  split
  case isTrue => exact fits_clear h
  case isFalse hne =>
    split
    case isTrue => exact h
    case isFalse => exact fun hrem => absurd hrem hne

/-- Removed values with an event that fits: the removal has not been looked at yet, or nothing was
there. -/
theorem event_eq_removed {entry : Entry κ} (h : entry.Fits) (hwas : entry.wasLive = true)
    (hrem : entry.isRemoved = true) : entry.event = .removed := by
  rcases h hrem with hev | hev
  · rw [wasLive, hev] at hwas
    simp [hrem] at hwas
  · exact hev

end Entry

namespace Table

variable {κ : Type}

/-! ## Groups -/

/-- A group that gets other entries leaves the other groups alone. -/
@[simp] theorem entries_withEntries (t : Table κ) (g g' : Group) (entries : List (Entry κ)) :
    (t.withEntries g entries).entries g' = if g' = g then entries else t.entries g' := by
  cases g <;> cases g' <;> rfl

@[simp] theorem entries_empty (g : Group) : ({} : Table κ).entries g = [] := by
  cases g <;> rfl

/-- Collecting the events takes the event of each entry away. -/
@[simp] theorem entries_clearEvents (t : Table κ) (g : Group) :
    t.clearEvents.entries g = (t.entries g).map Entry.clearEvent := by
  cases g <;> rfl

/-- All groups are applied. -/
theorem mem_applicationOrder (g : Group) : g ∈ Group.applicationOrder := by
  cases g <;> decide

/-- The list of a table holds the entries of its groups. -/
theorem mem_list {t : Table κ} {g : Group} {entry : Entry κ} :
    (g, entry) ∈ t.list ↔ entry ∈ t.entries g := by
  simp only [list, List.mem_flatMap, List.mem_map, Prod.mk.injEq]
  constructor
  · rintro ⟨g', -, entry', hmem, rfl, rfl⟩
    exact hmem
  · exact fun h => ⟨g, mem_applicationOrder g, entry, h, rfl, rfl⟩

/-- Clearing clears the entries of the groups that are chosen, in place. -/
theorem entries_clear (t : Table κ) (choice : Option Group) (g : Group) :
    (t.clear choice).1.entries g =
      if g.isIn choice then (t.entries g).map (·.clear.1) else t.entries g := by
  rcases choice with _ | only
  · cases g <;> rfl
  · cases only <;> cases g <;> rfl

/-- Clearing reports no change exactly if nothing was live in the groups that are chosen. -/
theorem clear_snd (t : Table κ) (choice : Option Group) :
    (t.clear choice).2 = false ↔ ∀ g, g.isIn choice = true → t.live g = [] := by
  simp only [clear, List.any_eq_false, List.mem_filter, Bool.not_eq_true, Bool.not_eq_false',
    List.isEmpty_iff]
  exact ⟨fun h g hg => h g ⟨mem_applicationOrder g, hg⟩, fun h g hg => h g hg.2⟩

/-- No group holds a key twice. -/
def Keyed (t : Table κ) : Prop := ∀ g, ((t.entries g).map (·.key)).Nodup

variable [DecidableEq κ]

theorem key_of_find? {t : Table κ} {g : Group} {key : κ} {entry : Entry κ}
    (h : t.find? g key = some entry) : entry.key = key := by
  have := List.find?_some h
  simpa using this

theorem mem_of_find? {t : Table κ} {g : Group} {key : κ} {entry : Entry κ}
    (h : t.find? g key = some entry) : entry ∈ t.entries g :=
  List.mem_of_find?_eq_some h

omit [DecidableEq κ] in
/-- Entries that follow one with a key have other keys. -/
theorem key_ne_of_nodup {first entry : Entry κ} {rest : List (Entry κ)}
    (h : ((first :: rest).map (·.key)).Nodup) (hmem : entry ∈ rest) : entry.key ≠ first.key := by
  intro he
  refine (List.nodup_cons.mp h).1 ?_
  show first.key ∈ _
  rw [← he]
  exact List.mem_map_of_mem hmem

/-- In a table with one entry for a key, each entry is the one that is found. -/
theorem find?_of_mem {t : Table κ} (h : t.Keyed) {g : Group} {entry : Entry κ}
    (hmem : entry ∈ t.entries g) : t.find? g entry.key = some entry := by
  have hnd := h g
  unfold find?
  generalize t.entries g = entries at hmem hnd
  induction entries with
  | nil => cases hmem
  | cons first rest ih =>
    rcases List.mem_cons.mp hmem with rfl | hmem
    · simp
    · have hne := key_ne_of_nodup hnd hmem
      rw [List.find?_cons_of_neg (by simpa using hne.symm)]
      exact ih hmem (List.nodup_cons.mp hnd).2

/-- A key that occurs once is erased by leaving out all its entries. -/
theorem eraseP_key {entries : List (Entry κ)} (h : (entries.map (·.key)).Nodup) (key : κ) :
    entries.eraseP (·.key = key) = entries.filter (·.key ≠ key) := by
  induction entries with
  | nil => rfl
  | cons first rest ih =>
    by_cases hkey : first.key = key
    · have hall : rest.filter (·.key ≠ key) = rest := by
        rw [List.filter_eq_self]
        intro entry hmem
        rw [← hkey]
        simpa using key_ne_of_nodup h hmem
      rw [List.eraseP_cons_of_pos (by simpa using hkey),
        List.filter_cons_of_neg (by simpa using hkey), hall]
    · rw [List.eraseP_cons_of_neg (by simpa using hkey),
        List.filter_cons_of_pos (by simpa using hkey), ih (List.nodup_cons.mp h).2]

/-! ## The map after a change -/

/-- An entry that is touched goes to the end of its group. -/
theorem entries_touch {t : Table κ} (h : t.Keyed) (g g' : Group) (key : κ)
    (change : Entry κ → Entry κ × Bool) :
    (t.touch g key change).1.entries g' =
      if g' = g then
        (t.entries g).filter (·.key ≠ key) ++ [(change (t.entry g key)).1]
      else t.entries g' := by
  rw [touch, entries_withEntries, eraseP_key (h g)]

theorem key_entry (t : Table κ) (g : Group) (key : κ) : (t.entry g key).key = key := by
  rw [entry]
  cases h : t.find? g key with
  | none => rfl
  | some entry => exact key_of_find? h

section Touch

variable {t : Table κ} {g : Group} {key : κ} {change : Entry κ → Entry κ × Bool}

/-- Touching leaves one entry for a key. -/
theorem keyed_touch (h : t.Keyed) (hkey : ∀ entry, (change entry).1.key = entry.key) :
    (t.touch g key change).1.Keyed := by
  intro g'
  rw [entries_touch h]
  split
  case isTrue =>
    rw [List.map_append, List.nodup_append']
    refine ⟨((List.filter_sublist.map _).nodup (h g)), List.nodup_singleton _, ?_⟩
    intro key' hmem hlast
    obtain ⟨entry, hentry, rfl⟩ := List.mem_map.mp hmem
    simp only [List.map_cons, List.map_nil, List.mem_singleton, hkey, key_entry] at hlast
    simpa [hlast] using (List.mem_filter.mp hentry).2
  case isFalse => exact h g'

/-- Touching changes one entry, which is new if there was none, and no other. -/
theorem find?_touch (h : t.Keyed) (hkey : ∀ entry, (change entry).1.key = entry.key)
    (g' : Group) (key' : κ) :
    (t.touch g key change).1.find? g' key' =
      if g' = g ∧ key' = key then some (change (t.entry g key)).1 else t.find? g' key' := by
  rw [find?, entries_touch h]
  by_cases hg : g' = g
  · subst hg
    have hlast : (change (t.entry g' key)).1.key = key := by rw [hkey, key_entry]
    rw [if_pos rfl, List.find?_append]
    by_cases hk : key' = key
    · subst hk
      -- the old entry has been erased, the new one stands at the back
      have hnone : ((t.entries g').filter (·.key ≠ key')).find? (·.key = key') = none := by
        simp
      rw [hnone]
      simp [hlast]
    · -- another key is found where it was found before
      have hsame : ((t.entries g').filter (·.key ≠ key)).find? (·.key = key') =
          t.find? g' key' := by
        rw [List.find?_filter, find?]
        refine congrArg (fun p => List.find? p _) (funext fun a => ?_)
        by_cases ha : a.key = key' <;> simp [ha, hk]
      rw [hsame, if_neg (by simp [hk])]
      simp [hlast, Ne.symm hk]
  · simp [hg, find?]

end Touch

/-- Removal clears one entry, and no other. -/
theorem find?_remove (t : Table κ) (g g' : Group) (key key' : κ) :
    (t.remove g key).1.find? g' key' =
      if g' = g ∧ key' = key then (t.find? g' key').map (·.clear.1) else t.find? g' key' := by
  rw [find?, remove, entries_withEntries]
  by_cases hg : g' = g
  · subst hg
    rw [if_pos rfl, List.find?_map]
    have hsame : ((fun a : Entry κ => decide (a.key = key')) ∘
        fun entry => if entry.key = key then entry.clear.1 else entry) =
          fun a => decide (a.key = key') := by
      funext a
      by_cases ha : a.key = key <;> simp [ha]
    rw [hsame, ← find?]
    cases hfind : t.find? g' key' with
    | none => simp
    | some entry =>
      have hentry := key_of_find? hfind
      by_cases hk : key' = key <;> simp [hentry, hk]
  · simp [hg, find?]

theorem keyed_remove {t : Table κ} (h : t.Keyed) (g : Group) (key : κ) :
    (t.remove g key).1.Keyed := by
  intro g'
  rw [remove, entries_withEntries]
  split
  case isTrue hg =>
    subst hg
    rw [List.map_map]
    convert h g' using 2
    funext entry
    by_cases hk : entry.key = key <;> simp [hk]
  case isFalse => exact h g'

/-- Clearing clears all entries of the groups that are chosen, and no others. -/
theorem find?_clear (t : Table κ) (choice : Option Group) (g : Group) (key : κ) :
    (t.clear choice).1.find? g key =
      if g.isIn choice then (t.find? g key).map (·.clear.1) else t.find? g key := by
  rw [find?, entries_clear]
  split
  · rw [List.find?_map, find?]
    congr 1
    refine congrArg (fun p => List.find? p _) (funext fun a => ?_)
    simp
  · rfl

omit [DecidableEq κ] in
theorem keyed_clear {t : Table κ} (h : t.Keyed) (choice : Option Group) :
    (t.clear choice).1.Keyed := by
  intro g
  rw [entries_clear]
  split
  · rw [List.map_map]
    simpa [Function.comp_def] using h g
  · exact h g

theorem find?_clearEvents (t : Table κ) (g : Group) (key : κ) :
    t.clearEvents.find? g key = (t.find? g key).map Entry.clearEvent := by
  rw [find?, entries_clearEvents, List.find?_map, find?]
  rfl

omit [DecidableEq κ] in
theorem keyed_clearEvents {t : Table κ} (h : t.Keyed) : t.clearEvents.Keyed := by
  intro g
  rw [entries_clearEvents, List.map_map]
  exact h g

omit [DecidableEq κ] in
/-- No events are pending after they have been collected. -/
theorem hasPendingEvents_clearEvents (t : Table κ) : t.clearEvents.hasPendingEvents = false := by
  rw [hasPendingEvents, List.any_eq_false]
  rintro ⟨g, entry⟩ hmem
  rw [mem_list, entries_clearEvents] at hmem
  obtain ⟨old, -, rfl⟩ := List.mem_map.mp hmem
  simp [Entry.clearEvent]

/-- Events are pending exactly if some entry has one. -/
theorem hasPendingEvents_iff {t : Table κ} (h : t.Keyed) :
    t.hasPendingEvents = true ↔
      ∃ g key entry, t.find? g key = some entry ∧ entry.event ≠ .none := by
  simp only [hasPendingEvents, List.any_eq_true, Prod.exists, bne_iff_ne, ne_eq]
  constructor
  · rintro ⟨g, entry, hmem, hev⟩
    exact ⟨g, entry.key, entry, find?_of_mem h (mem_list.mp hmem), hev⟩
  · rintro ⟨g, key, entry, hfind, hev⟩
    exact ⟨g, entry, mem_list.mpr (mem_of_find? hfind), hev⟩

end Table

end FlexStyle
