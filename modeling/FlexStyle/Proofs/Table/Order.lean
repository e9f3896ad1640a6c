import FlexStyle.Proofs.Table.Evolution

/-!
# The order of live entries

What a table stands for is the list of its live entries in the order of application. A removal or a
clearing that reports no change leaves the table as it is. A copy that reports no change leaves all
values as they are, but every entry that it has written has moved to the back of its group.

- `Table.liveList`: the live entries of all groups in the order of application.
- `Table.Trails`: the keys that a copy writes stand at the back of their groups already, in the
  order of the source.
- `Table.find?_copyFrom_of_false`, `Table.liveList_copyFrom_iff`: a copy that reports no change
  keeps every entry, and keeps their order exactly if what it writes trails already.
-/

namespace FlexStyle.Table

section Lists

variable {κ : Type}

/-- The live entries in the order of application, with their groups, keys and values. -/
def liveList (t : Table κ) : List (Group × κ × List Value) :=
  Group.applicationOrder.flatMap fun g => (t.live g).map fun entry => (g, entry.key, entry.values)

/-- The keys of the live entries of a group, in order. -/
def liveKeys (t : Table κ) (g : Group) : List κ := (t.live g).map (·.key)

/-- What is live in one group. -/
def liveIn (t : Table κ) (g : Group) : List (κ × List Value) :=
  (t.live g).map fun entry => (entry.key, entry.values)

theorem liveList_eq (t : Table κ) :
    t.liveList = Group.applicationOrder.flatMap fun g => (t.liveIn g).map (g, ·) := by
  simp [liveList, liveIn, Function.comp_def]

/-- The live entries are in the same order if they are in each group. -/
theorem liveList_eq_iff {s t : Table κ} :
    s.liveList = t.liveList ↔ ∀ g, s.liveIn g = t.liveIn g := by
  constructor
  · intro h g
    have hpick : ∀ r : Table κ,
        r.liveList.filterMap (fun item => if item.1 = g then some item.2 else none) =
          r.liveIn g := by
      intro r
      rw [liveList_eq]
      cases g <;> simp [Group.applicationOrder, List.filterMap_map]
    rw [← hpick s, ← hpick t, h]
  · intro h
    rw [liveList_eq, liveList_eq]
    simp only [h]

/-- All entries in the order of application. -/
def rows (t : Table κ) : List (Entry κ) := t.list.map (·.2)

theorem exists_mem_of_mem_rows {t : Table κ} {entry : Entry κ} (h : entry ∈ t.rows) :
    ∃ g, entry ∈ t.entries g := by
  obtain ⟨⟨g, entry'⟩, hmem, rfl⟩ := List.mem_map.mp h
  exact ⟨g, mem_list.mp hmem⟩

/-- The live entries are those in the list that have not been removed. -/
theorem liveList_eq_list (t : Table κ) :
    t.liveList = (t.list.filter (!·.2.isRemoved)).map fun (g, entry) =>
      (g, entry.key, entry.values) := by
  unfold liveList list live
  rw [List.filter_flatMap, List.map_flatMap]
  refine congrArg (List.flatMap · _) (funext fun g => ?_)
  rw [List.filter_map, List.map_map]
  rfl

/-- What it means that an entry is live. -/
theorem mem_liveList {t : Table κ} {g : Group} {key : κ} {values : List Value} :
    (g, key, values) ∈ t.liveList ↔
      ∃ entry ∈ t.entries g, entry.isRemoved = false ∧ entry.key = key ∧
        entry.values = values := by
  rw [liveList_eq_list]
  simp only [List.mem_map, List.mem_filter, Prod.exists, Prod.mk.injEq, Bool.not_eq_true',
    mem_list]
  constructor
  · rintro ⟨g', entry, ⟨hmem, hlive⟩, rfl, rfl, rfl⟩
    exact ⟨entry, hmem, hlive, rfl, rfl⟩
  · rintro ⟨entry, hmem, hlive, rfl, rfl⟩
    exact ⟨g, entry, ⟨hmem, hlive⟩, rfl, rfl, rfl⟩

/-- What is live does not depend on events. -/
theorem liveList_clearEvents (t : Table κ) : t.clearEvents.liveList = t.liveList := by
  unfold liveList live
  refine congrArg (List.flatMap · _) (funext fun g => ?_)
  rw [entries_clearEvents, List.filter_map, List.map_map]
  rfl

end Lists

variable {t source : Table Property}

/-- The keys that a copy of one group, or of all, writes to a group. -/
def copiedKeys (source : Table Property) (choice : Option Group) (g : Group) : List Property :=
  if g.isIn choice then source.liveKeys g else []

/-- Whether the keys that a copy writes stand at the back of their groups, in the order of the
source. -/
def Trails (t source : Table Property) (choice : Option Group) : Prop :=
  ∀ g, source.copiedKeys choice g <:+ t.liveKeys g

theorem foldChanges_snd_cons {σ α : Type} {step : σ → α → σ × Bool} {s : σ} {a : α}
    {rest : List α} (h : (foldChanges step s (a :: rest)).2 = false) :
    (step s a).2 = false ∧ (foldChanges step (step s a).1 rest).2 = false := by
  rwa [foldChanges_cons, Bool.or_eq_false_iff] at h

/-- The keys among some entries that belong to a group. -/
def keysIn (g : Group) (items : List (Group × Entry Property)) : List Property :=
  items.filterMap fun item => if item.1 = g then some item.2.key else none

theorem keysIn_cons_sublist (g : Group) (item : Group × Entry Property)
    (rest : List (Group × Entry Property)) : (keysIn g rest).Sublist (keysIn g (item :: rest)) := by
  unfold keysIn
  rw [List.filterMap_cons]
  split
  · exact List.Sublist.refl _
  · exact List.sublist_cons_self _ _

/-- The keys that a copy writes to a group are those of the live entries of that group. -/
theorem keysIn_source (source : Table Property) (choice : Option Group) (g : Group) :
    keysIn g (source.list.filter fun (g, entry) => g.isIn choice && !entry.isRemoved) =
      source.copiedKeys choice g := by
  unfold keysIn list copiedKeys liveKeys live
  rw [List.filter_flatMap, List.filterMap_flatMap]
  cases hg : g.isIn choice <;> cases g <;>
    simp [Group.applicationOrder, List.filter_map, List.filterMap_map, Function.comp_def, hg]

/-- No key is live in a group twice. -/
theorem nodup_liveKeys (h : t.Keyed) (g : Group) : (t.liveKeys g).Nodup :=
  (List.filter_sublist.map _).nodup (h g)

/-- Writes that report no change one after another: all entries are kept, and those that were
written have moved to the back. -/
theorem foldChanges_set_of_false (items : List (Group × Entry Property)) (h : t.Keyed)
    (hlive : ∀ item ∈ items, item.2.isRemoved = false) (hnd : ∀ g, (keysIn g items).Nodup)
    (hsame : (foldChanges (fun t (g, entry) => t.set g entry.key entry.values) t items).2 = false) :
    let after := (foldChanges (fun t (g, entry) => t.set g entry.key entry.values) t items).1
    (∀ g p, after.find? g p = t.find? g p) ∧
      ∀ g, after.entries g =
          (t.entries g).filter (·.key ∉ keysIn g items) ++ (keysIn g items).map (t.entry g) ∧
        ∀ p ∈ keysIn g items, (t.entry g p).isRemoved = false ∧
          t.find? g p = some (t.entry g p) := by
  induction items generalizing t with
  | nil => exact ⟨fun _ _ => rfl, fun g => by simp [keysIn]⟩
  | cons item rest ih =>
    obtain ⟨g₀, entry₀⟩ := item
    obtain ⟨hfirst, hrest⟩ := foldChanges_snd_cons hsame
    have hne : entry₀.values.isEmpty = false := hlive _ List.mem_cons_self
    dsimp only at hfirst hrest
    -- the first write keeps all entries, so that the other ones find what was there before
    have hkeep := find?_set_of_false h hne hfirst
    have hkeepEntry : ∀ g, (t.set g₀ entry₀.key entry₀.values).1.entry g = t.entry g := by
      intro g
      funext p
      rw [entry, hkeep, entry]
    obtain ⟨hfind, hentries⟩ := ih (keyed_set_of_ne_nil h g₀ entry₀.key hne)
      (fun item hmem => hlive item (List.mem_cons_of_mem _ hmem))
      (fun g => (keysIn_cons_sublist g _ rest).nodup (hnd g)) hrest
    rw [foldChanges_cons]
    refine ⟨fun g p => (hfind g p).trans (hkeep g p), fun g => ?_⟩
    obtain ⟨hafter, hmoved⟩ := hentries g
    simp only [hkeepEntry, hkeep] at hafter hmoved
    dsimp only
    rw [hafter, entries_set_of_false h hne hfirst]
    by_cases hg : g₀ = g
    · -- the entry has moved to the back, in front of those that are written later
      subst hg
      have hkeys : keysIn g₀ ((g₀, entry₀) :: rest) = entry₀.key :: keysIn g₀ rest := by
        simp [keysIn]
      have hnotMem : entry₀.key ∉ keysIn g₀ rest :=
        (List.nodup_cons.mp (hkeys ▸ hnd g₀)).1
      rw [if_pos rfl, hkeys, List.filter_append, List.filter_filter, List.map_cons]
      constructor
      · simp [key_entry, hnotMem, Bool.and_comm]
      · intro p hp
        obtain ⟨hsome, hwasLive, -⟩ := find?_of_set_false hne hfirst
        rcases List.mem_cons.mp hp with rfl | hp
        · exact ⟨hwasLive, hsome⟩
        · exact hmoved p hp
    · have hkeys : keysIn g ((g₀, entry₀) :: rest) = keysIn g rest := by
        simp [keysIn, hg]
      rw [if_neg (Ne.symm hg), hkeys]
      exact ⟨rfl, hmoved⟩

/-- What a copy that reports no change does to the table. -/
theorem copyFrom_of_false (h : t.Keyed) (hs : source.Keyed) {choice : Option Group}
    (hsame : (t.copyFrom source choice).2 = false) :
    (∀ g p, (t.copyFrom source choice).1.find? g p = t.find? g p) ∧
      ∀ g, (t.copyFrom source choice).1.entries g =
          (t.entries g).filter (·.key ∉ source.copiedKeys choice g) ++
            (source.copiedKeys choice g).map (t.entry g) ∧
        ∀ p ∈ source.copiedKeys choice g, (t.entry g p).isRemoved = false ∧
          t.find? g p = some (t.entry g p) := by
  have hkeys := keysIn_source source choice
  have hmain := foldChanges_set_of_false
    (source.list.filter fun (g, entry) => g.isIn choice && !entry.isRemoved) h
    (fun item hmem => by simpa using ((Bool.and_eq_true _ _).mp (List.mem_filter.mp hmem).2).2)
    (fun g => by
      rw [hkeys, copiedKeys]
      split
      · exact nodup_liveKeys hs g
      · exact List.nodup_nil)
    hsame
  simp only [hkeys] at hmain
  exact hmain

/-- A copy that reports no change changes no entry. -/
theorem find?_copyFrom_of_false (h : t.Keyed) (hs : source.Keyed) {choice : Option Group}
    (hsame : (t.copyFrom source choice).2 = false) (g : Group) (p : Property) :
    (t.copyFrom source choice).1.find? g p = t.find? g p :=
  (copyFrom_of_false h hs hsame).1 g p

/-- A copy that reports no change moves the copied keys to the back of their groups. -/
theorem live_copyFrom_of_false (h : t.Keyed) (hs : source.Keyed) {choice : Option Group}
    (hsame : (t.copyFrom source choice).2 = false) (g : Group) :
    (t.copyFrom source choice).1.live g =
      (t.live g).filter (·.key ∉ source.copiedKeys choice g) ++
        (source.copiedKeys choice g).map (t.entry g) := by
  obtain ⟨hentries, hlive⟩ := (copyFrom_of_false h hs hsame).2 g
  rw [live, hentries, List.filter_append, List.filter_filter, live, List.filter_filter]
  congr 1
  · exact congrArg (fun p => List.filter p _) (funext fun entry => Bool.and_comm _ _)
  · rw [List.filter_eq_self]
    intro entry hmem
    obtain ⟨p, hp, rfl⟩ := List.mem_map.mp hmem
    simp [(hlive p hp).1]

/-- Without the entries at the back, those in front are left. -/
theorem filter_front {front back : List (Entry Property)}
    (h : ((front ++ back).map (·.key)).Nodup) :
    (front ++ back).filter (·.key ∉ back.map (·.key)) = front := by
  rw [List.map_append] at h
  rw [List.filter_append, List.filter_eq_self.mpr, List.filter_eq_nil_iff.mpr, List.append_nil]
  · intro entry hmem
    simpa using ⟨entry, hmem, rfl⟩
  · intro entry hmem
    have hapart := List.disjoint_of_nodup_append h (List.mem_map_of_mem hmem)
    simpa using hapart

/-- A copy that reports no change keeps the order of what is live exactly if all that it writes
trails already. -/
theorem liveList_copyFrom_iff (h : t.Keyed) (hs : source.Keyed) {choice : Option Group}
    (hsame : (t.copyFrom source choice).2 = false) :
    (t.copyFrom source choice).1.liveList = t.liveList ↔ t.Trails source choice := by
  rw [liveList_eq_iff, Trails]
  refine forall_congr' fun g => ?_
  rw [liveIn, live_copyFrom_of_false h hs hsame]
  generalize hkeys : source.copiedKeys choice g = keys
  have hnd : ((t.live g).map (·.key)).Nodup := nodup_liveKeys h g
  have hentry : ∀ entry ∈ t.live g, t.entry g entry.key = entry := by
    intro entry hmem
    rw [Table.entry, find?_of_mem h (List.mem_filter.mp hmem).1]
    rfl
  constructor
  · intro heq
    have hkeysEq := congrArg (List.map Prod.fst) heq
    rw [liveIn, List.map_map, List.map_map, List.map_append, List.map_map] at hkeysEq
    refine ⟨((t.live g).filter (·.key ∉ keys)).map (·.key), ?_⟩
    rw [liveKeys]
    refine Eq.trans ?_ hkeysEq
    congr 1
    refine ((List.map_congr_left fun p _ => ?_).trans (List.map_id _)).symm
    exact key_entry t g p
  · rintro ⟨front, hfront⟩
    -- what is moved is what stands at the back
    obtain ⟨l₁, l₂, hl, hl₁, hl₂⟩ := List.map_eq_append_iff.mp hfront.symm
    rw [liveIn, hl]
    rw [hl] at hnd hentry
    have hback : keys.map (t.entry g) = l₂ := by
      rw [← hl₂, List.map_map]
      refine (List.map_congr_left fun entry hmem => ?_).trans (List.map_id _)
      exact hentry entry (List.mem_append_right _ hmem)
    rw [← hl₂, filter_front hnd, hl₂, hback]

end FlexStyle.Table
