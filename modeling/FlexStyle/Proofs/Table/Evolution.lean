import FlexStyle.Proofs.Table

/-!
# How tables evolve

A table that is only changed by its own operations stays tidy, and its events keep telling which
entries were live when they were last cleared. An operation that reports no change leaves every
entry as it is; only a copy may still have moved some of them.

- `Property.Admits`: the values that a property may be given.
- `Table.Tidy`, `Table.Evolves`: what is kept.
- `Table.evolves_set`, `Table.evolves_remove`, `Table.evolves_clear`, `Table.evolves_copyFrom`: each
  operation keeps it.
- `Table.remove_of_false`, `Table.clear_of_false`, `Table.find?_set_of_false`: operations that
  report no change.
-/

namespace FlexStyle

/-- Whether values are the reading of some arguments that a property takes. -/
def Property.Admits (p : Property) (values : List Value) : Prop :=
  ∃ arguments, p.accept? arguments = some values

/-- A write stores the new values or leaves those that were there. -/
theorem Entry.values_write {κ : Type} {P : List Value → Prop} {entry : Entry κ}
    {values : List Value} (hold : entry.isRemoved = false → P entry.values) (hnew : P values)
    (hlive : (entry.write values).1.isRemoved = false) : P (entry.write values).1.values := by
  unfold write at hlive ⊢
  split at hlive
  case isTrue => simp at hlive
  case isFalse hne =>
    rw [if_neg hne]
    split at hlive
    case isTrue heq =>
      rw [if_pos heq]
      exact hold hlive
    case isFalse heq =>
      rw [if_neg heq]
      exact hnew

namespace Table

/-- Tables are the same if their groups are. -/
theorem ext_entries {κ : Type} {s t : Table κ} (h : ∀ g, s.entries g = t.entries g) : s = t := by
  obtain ⟨p, q, r⟩ := s
  obtain ⟨p', q', r'⟩ := t
  have hp : p = p' := h .preset
  have hq : q = q' := h .sheet
  have hr : r = r' := h .inline
  rw [hp, hq, hr]

/-- Whether the entry of a key in a group held values when the events were last cleared. -/
def wasLive (t : Table Property) (g : Group) (p : Property) : Bool :=
  (t.find? g p).any Entry.wasLive

/-- What holds of every table that is only changed through its operations. -/
structure Tidy (t : Table Property) : Prop where
  keyed : t.Keyed
  admits : ∀ {g p entry}, t.find? g p = some entry → entry.isRemoved = false →
    p.Admits entry.values
  fits : ∀ {g p entry}, t.find? g p = some entry → entry.Fits

/-- A tidy table whose entries were live, when the events were last cleared, exactly if those of
another one were. -/
structure Evolves (s t : Table Property) : Prop where
  tidy : t.Tidy
  wasLive : ∀ g p, t.wasLive g p = s.wasLive g p

theorem Evolves.refl {t : Table Property} (h : t.Tidy) : t.Evolves t := ⟨h, fun _ _ => rfl⟩

/-- A change after a change is one. -/
theorem Evolves.trans {r s t : Table Property} (h₁ : r.Evolves s) (h₂ : s.Evolves t) :
    r.Evolves t :=
  ⟨h₂.tidy, fun g p => (h₂.wasLive g p).trans (h₁.wasLive g p)⟩

theorem tidy_empty : ({} : Table Property).Tidy where
  keyed g := by simp
  admits h := by simp [find?] at h
  fits h := by simp [find?] at h

variable {t : Table Property}

/-! ## Writing -/

/-- The entry that a write finds, new or old. -/
theorem entry_cases (t : Table Property) (g : Group) (p : Property) :
    (t.find? g p = none ∧ t.entry g p = { key := p }) ∨ t.find? g p = some (t.entry g p) := by
  rw [entry]
  cases t.find? g p with
  | none => exact .inl ⟨rfl, rfl⟩
  | some entry => exact .inr rfl

/-- Touching leaves a table tidy if the property admits the values. -/
theorem evolves_touch (h : t.Tidy) (g : Group) {p : Property} {values : List Value}
    (hv : p.Admits values) : t.Evolves (t.touch g p (·.write values)).1 := by
  have hkey : ∀ entry : Entry Property, (entry.write values).1.key = entry.key :=
    fun entry => entry.key_write values
  have hfind : ∀ g' p', (t.touch g p (·.write values)).1.find? g' p' =
      if g' = g ∧ p' = p then some ((t.entry g p).write values).1 else t.find? g' p' :=
    find?_touch h.keyed hkey
  refine ⟨{ keyed := keyed_touch h.keyed hkey, admits := ?_, fits := ?_ }, ?_⟩
  · -- the values are the new ones, or those that the property was given before
    intro g' p' entry hentry hlive
    rw [hfind] at hentry
    split at hentry
    case isTrue heq =>
      cases hentry
      rw [heq.2]
      refine Entry.values_write (fun hold => ?_) hv hlive
      rcases t.entry_cases g p with ⟨-, hnew⟩ | hsome
      · rw [hnew] at hold
        cases hold
      · exact h.admits hsome hold
    case isFalse => exact h.admits hentry hlive
  · -- an entry that is new has no event yet
    intro g' p' entry hentry
    rw [hfind] at hentry
    split at hentry
    case isTrue =>
      cases hentry
      refine Entry.fits_write ?_
      rcases t.entry_cases g p with ⟨-, hnew⟩ | hsome
      · rw [hnew]
        exact fun _ => .inl rfl
      · exact h.fits hsome
    case isFalse => exact h.fits hentry
  · -- the event still tells what was live, and a new entry was not
    intro g' p'
    rw [Table.wasLive, hfind, Table.wasLive]
    split
    case isTrue heq =>
      rw [Option.any_some, Entry.wasLive_write, heq.1, heq.2]
      rcases t.entry_cases g p with ⟨hnone, hnew⟩ | hsome
      · rw [hnone, hnew]
        rfl
      · rw [hsome]
        rfl
    case isFalse => rfl

/-! ## Removing -/

/-- Clearing some of the entries keeps a table tidy. -/
theorem evolves_of_clear (h : t.Tidy) {t' : Table Property} (hkeyed : t'.Keyed)
    (which : Group → Property → Bool)
    (hfind : ∀ g p, t'.find? g p =
      if which g p then (t.find? g p).map (·.clear.1) else t.find? g p) : t.Evolves t' := by
  refine ⟨{ keyed := hkeyed, admits := ?_, fits := ?_ }, ?_⟩
  · intro g p entry hentry hlive
    rw [hfind] at hentry
    split at hentry
    case isTrue =>
      obtain ⟨old, -, rfl⟩ := Option.map_eq_some_iff.mp hentry
      simp at hlive
    case isFalse => exact h.admits hentry hlive
  · intro g p entry hentry
    rw [hfind] at hentry
    split at hentry
    case isTrue =>
      obtain ⟨old, hold, rfl⟩ := Option.map_eq_some_iff.mp hentry
      exact Entry.fits_clear (h.fits hold)
    case isFalse => exact h.fits hentry
  · intro g p
    rw [Table.wasLive, hfind, Table.wasLive]
    split
    · cases t.find? g p with
      | none => rfl
      | some entry => exact entry.wasLive_clear
    · rfl

/-- Removal leaves a table tidy. -/
theorem evolves_remove (h : t.Tidy) (g : Group) (p : Property) : t.Evolves (t.remove g p).1 := by
  refine evolves_of_clear h (keyed_remove h.keyed g p) (fun g' p' => g' = g ∧ p' = p) ?_
  intro g' p'
  rw [find?_remove]
  simp only [decide_eq_true_eq]

/-- Clearing leaves a table tidy. -/
theorem evolves_clear (h : t.Tidy) (choice : Option Group) : t.Evolves (t.clear choice).1 :=
  evolves_of_clear h (keyed_clear h.keyed choice) (fun g _ => g.isIn choice)
    fun g p => t.find?_clear choice g p

/-- Setting leaves a table tidy if the property admits the values. -/
theorem evolves_set (h : t.Tidy) (g : Group) {p : Property} {values : List Value}
    (hv : p.Admits values) : t.Evolves (t.set g p values).1 := by
  rw [set]
  split
  · exact evolves_remove h g p
  · exact evolves_touch h g hv

/-- A copy from a tidy table leaves a table tidy. -/
theorem evolves_copyFrom (h : t.Tidy) {source : Table Property} (hs : source.Tidy)
    (choice : Option Group) : t.Evolves (t.copyFrom source choice).1 := by
  refine foldChanges_induction (P := t.Evolves) _ _ ?_ (.refl h)
  rintro ⟨g, entry⟩ hmem s hstep
  obtain ⟨hlist, hkeep⟩ := List.mem_filter.mp hmem
  simp only [Bool.and_eq_true, Bool.not_eq_true'] at hkeep
  have hentry := find?_of_mem hs.keyed (mem_list.mp hlist)
  exact hstep.trans (evolves_set hstep.tidy g (hs.admits hentry hkeep.2))

theorem tidy_clearEvents (h : t.Tidy) : t.clearEvents.Tidy where
  keyed := keyed_clearEvents h.keyed
  admits {g p entry} hfind hlive := by
    rw [find?_clearEvents] at hfind
    obtain ⟨old, hold, rfl⟩ := Option.map_eq_some_iff.mp hfind
    have hadmits : p.Admits old.values := h.admits hold hlive
    exact hadmits
  fits hfind := by
    rw [find?_clearEvents] at hfind
    obtain ⟨old, hold, rfl⟩ := Option.map_eq_some_iff.mp hfind
    exact fun _ => .inl rfl

/-- Once the events are cleared, what was live is what is live. -/
theorem wasLive_clearEvents (t : Table Property) (g : Group) (p : Property) :
    t.clearEvents.wasLive g p = (t.find? g p).any (!·.isRemoved) := by
  rw [wasLive, find?_clearEvents]
  cases t.find? g p <;> rfl

/-! ## Operations that report no change -/

/-- A removal that reports no change leaves the table as it is. -/
theorem remove_of_false (h : t.Keyed) {g : Group} {p : Property}
    (hsame : (t.remove g p).2 = false) : (t.remove g p).1 = t := by
  refine ext_entries fun g' => ?_
  rw [remove, entries_withEntries]
  split
  case isFalse => rfl
  case isTrue hg =>
    subst hg
    refine (List.map_congr_left fun entry hmem => ?_).trans (List.map_id _)
    split
    case isFalse => rfl
    case isTrue hkey =>
      have hfind := find?_of_mem h hmem
      have hrem : entry.isRemoved = true := by
        simpa [remove, ← hkey, hfind] using hsame
      rw [Entry.clear_of_isRemoved hrem]
      rfl

/-- Clearing that reports no change leaves the table as it is. -/
theorem clear_of_false {choice : Option Group} (hsame : (t.clear choice).2 = false) :
    (t.clear choice).1 = t := by
  refine ext_entries fun g => ?_
  rw [entries_clear]
  split
  case isFalse => rfl
  case isTrue hg =>
    have hlive := (clear_snd t choice).mp hsame g hg
    refine (List.map_congr_left fun entry hmem => ?_).trans (List.map_id _)
    have hrem : entry.isRemoved = true := by
      have := List.filter_eq_nil_iff.mp hlive entry hmem
      simpa using this
    rw [Entry.clear_of_isRemoved hrem]
    rfl

/-- A write that reports no change finds an entry with equal values. -/
theorem find?_of_set_false {g : Group} {p : Property} {values : List Value}
    (hne : values.isEmpty = false) (hsame : (t.set g p values).2 = false) :
    t.find? g p = some (t.entry g p) ∧ (t.entry g p).isRemoved = false ∧
      ((t.entry g p).write values).1 = t.entry g p := by
  rw [set, hne, if_neg (by decide), touch] at hsame
  obtain ⟨hwrite, heq⟩ := Entry.write_eq_self hne hsame
  have hlive : (t.entry g p).isRemoved = false := by
    cases hvalues : (t.entry g p).values with
    | cons first rest => simp [Entry.isRemoved, hvalues]
    | nil =>
      rw [hvalues] at heq
      cases values with
      | nil => cases hne
      | cons first rest => cases heq
  refine ⟨?_, hlive, hwrite⟩
  rcases t.entry_cases g p with ⟨-, hnew⟩ | hsome
  · rw [hnew] at hlive
    cases hlive
  · exact hsome

theorem keyed_set_of_ne_nil (h : t.Keyed) (g : Group) (p : Property) {values : List Value}
    (hne : values.isEmpty = false) : (t.set g p values).1.Keyed := by
  rw [set, hne, if_neg (by decide)]
  exact keyed_touch h fun entry => entry.key_write _

/-- A write that reports no change moves the entry to the back. -/
theorem entries_set_of_false (h : t.Keyed) {g : Group} {p : Property} {values : List Value}
    (hne : values.isEmpty = false) (hsame : (t.set g p values).2 = false) (g' : Group) :
    (t.set g p values).1.entries g' =
      if g' = g then (t.entries g).filter (·.key ≠ p) ++ [t.entry g p] else t.entries g' := by
  obtain ⟨-, -, hwrite⟩ := find?_of_set_false hne hsame
  rw [set, hne, if_neg (by decide), entries_touch h, hwrite]

/-- Setting that reports no change changes no entry, but may move it. -/
theorem find?_set_of_false (h : t.Keyed) {g : Group} {p : Property} {values : List Value}
    (hne : values.isEmpty = false) (hsame : (t.set g p values).2 = false)
    (g' : Group) (p' : Property) : (t.set g p values).1.find? g' p' = t.find? g' p' := by
  obtain ⟨hfind, -, hwrite⟩ := find?_of_set_false hne hsame
  rw [set, hne, if_neg (by decide), find?_touch h fun entry => entry.key_write values]
  split
  case isTrue heq => rw [hwrite, heq.1, heq.2, hfind]
  case isFalse => rfl

end Table

end FlexStyle
