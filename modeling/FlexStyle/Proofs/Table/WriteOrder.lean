import FlexStyle.Proofs.Table.Calls

/-!
# Tables as maps in the order of the last writes

Whatever calls have made a table: its groups hold each key once, in the order in which the keys were
last written, each with the values that were last asked for. A value that counts comes from the
highest group that has one, and every call reports whether it has changed any values.

- `Table.Records`: what a table holds after some calls.
- `Table.Executes`: what a call does to a table, and what it reports.
- `Table.run_records`: both hold in every run.
-/

namespace FlexStyle

/-- Groups of a higher rank count before those of a lower one. -/
def Group.rank : Group → Nat
  | .preset => 0
  | .sheet => 1
  | .inline => 2

theorem Group.forall_iff {P : Group → Prop} : (∀ g, P g) ↔ P .preset ∧ P .sheet ∧ P .inline :=
  ⟨fun h => ⟨h _, h _, h _⟩, fun ⟨hp, hs, hi⟩ g => by cases g <;> assumption⟩

/-- After writes, an entry holds what the last one asked for. -/
theorem Entry.sameValues_rewrite {κ : Type} (entry : Entry κ) (asked : List (List Value)) :
    SameValues (entry.rewrite asked).1.values (asked.getLast?.getD entry.values) := by
  rcases List.eq_nil_or_concat asked with rfl | ⟨before, last, rfl⟩
  · exact .inl rfl
  · rw [List.concat_eq_append, rewrite_append, rewrite_singleton, List.getLast?_concat]
    exact sameValues_write _ last

namespace Table

variable {κ : Type} [DecidableEq κ] {t source : Table κ}

/-! ## Entries in the order of their keys -/

/-- The entries of a group are those of its keys, in order. -/
theorem entries_eq_map (h : t.Keyed) (g : Group) : t.entries g = (t.keys g).map (t.entry g) := by
  rw [keys, List.map_map]
  refine ((List.map_congr_left fun entry hmem => ?_).trans (List.map_id _)).symm
  rw [Function.comp_apply, Table.entry, find?_of_mem h hmem]
  rfl

/-- The live entry of a key in a group, if there is one. -/
def live? (t : Table κ) (g : Group) (key : κ) : Option (Entry κ) :=
  (t.find? g key).filter (!·.isRemoved)

/-- What it means that a live entry is found. -/
theorem live?_eq_some_iff (h : t.Keyed) {g : Group} {key : κ} {entry : Entry κ} :
    t.live? g key = some entry ↔ entry ∈ t.live g ∧ entry.key = key := by
  rw [live?, Option.filter_eq_some_iff, live, List.mem_filter]
  constructor
  · rintro ⟨hfind, hlive⟩
    exact ⟨⟨mem_of_find? hfind, hlive⟩, key_of_find? hfind⟩
  · rintro ⟨⟨hmem, hlive⟩, rfl⟩
    exact ⟨find?_of_mem h hmem, hlive⟩

/-- What it means that no live entry is found. -/
theorem live?_eq_none_iff (h : t.Keyed) {g : Group} {key : κ} :
    t.live? g key = none ↔ key ∉ t.liveKeys g := by
  simp only [Option.eq_none_iff_forall_ne_some, ne_eq, live?_eq_some_iff h, liveKeys, List.mem_map,
    not_exists]

/-- The entry that counts is the live one in the first group of the cascade that has one. -/
theorem cascaded?_eq (t : Table κ) (key : κ) :
    t.cascaded? key = Group.cascadeOrder.findSome? fun g => (t.live? g key).map (g, ·) := rfl

/-- The live entry of a key that counts is that of the highest group with one. -/
theorem cascaded?_eq_some_iff (h : t.Keyed) {g : Group} {key : κ} {entry : Entry κ} :
    t.cascaded? key = some (g, entry) ↔
      (entry ∈ t.live g ∧ entry.key = key) ∧ ∀ g', g.rank < g'.rank → key ∉ t.liveKeys g' := by
  simp only [← live?_eq_some_iff h, ← live?_eq_none_iff h, cascaded?_eq, Group.cascadeOrder,
    Group.forall_iff, List.findSome?_cons, List.findSome?_nil]
  cases hinline : t.live? .inline key <;> cases hsheet : t.live? .sheet key <;>
    cases hpreset : t.live? .preset key <;> cases g <;>
      simp [Group.rank, hinline, hsheet, hpreset]

/-- No entry counts exactly if no group has a live one. -/
theorem cascaded?_eq_none_iff (h : t.Keyed) {key : κ} :
    t.cascaded? key = none ↔ ∀ g, key ∉ t.liveKeys g := by
  simp only [← live?_eq_none_iff h, cascaded?_eq, List.findSome?_eq_none_iff,
    Option.map_eq_none_iff]
  refine ⟨fun hall g => hall g ?_, fun hall g _ => hall g⟩
  cases g <;> decide

/-! ## A copy in the order of its source -/

omit [DecidableEq κ] in
theorem isRemoved_of_mem_live {g : Group} {entry : Entry κ} (h : entry ∈ t.live g) :
    entry.isRemoved = false := by
  simpa using (List.mem_filter.mp h).2

theorem filter_key {entries : List (Entry κ)} (h : (entries.map (·.key)).Nodup) {entry : Entry κ}
    (hmem : entry ∈ entries) : entries.filter (·.key = entry.key) = [entry] := by
  induction entries with
  | nil => cases hmem
  | cons first rest ih =>
    rcases List.mem_cons.mp hmem with rfl | hmem
    · rw [List.filter_cons_of_pos (by simp), List.filter_eq_nil_iff.mpr]
      intro other hother
      simpa using key_ne_of_nodup h hother
    · have hne := key_ne_of_nodup h hmem
      rw [List.filter_cons_of_neg (by simpa using hne.symm)]
      exact ih (List.nodup_cons.mp h).2 hmem

section Copy

variable {choice : Option Group} {g : Group}

/-- A copy asks for the values of a live entry once. -/
theorem asks_copyFrom_of_live (hs : source.Keyed) (hg : g.isIn choice = true) {entry : Entry κ}
    (hmem : entry ∈ source.live g) :
    (Call.copyFrom source choice).asks g entry.key = [entry.values] := by
  have hnd : ((source.live g).map (·.key)).Nodup := (List.filter_sublist.map _).nodup (hs g)
  rw [Call.asks, if_pos hg, filter_key hnd hmem]
  rfl

theorem asks_copyFrom_of_notMem {key : κ} (h : key ∉ source.liveKeys g) :
    (Call.copyFrom source choice).asks g key = [] := by
  rw [Call.asks]
  split
  · rw [List.filter_eq_nil_iff.mpr, List.map_nil]
    intro entry hmem
    simpa using fun heq => h (List.mem_map.mpr ⟨entry, hmem, heq⟩)
  · rfl

/-- A copy leaves in front the entries that it does not write, and at the back those that it
writes. -/
theorem live_copyFrom (h : t.Keyed) (hs : source.Keyed) (hg : g.isIn choice = true) :
    (t.copyFrom source choice).1.live g =
      (t.live g).filter (·.key ∉ source.liveKeys g) ++
        (source.live g).map fun entry => ((t.entry g entry.key).write entry.values).1 := by
  have hcopy := follows_copyFrom h source choice
  have hkeys : (t.copyFrom source choice).1.keys g =
      (t.keys g).filter (· ∉ source.liveKeys g) ++ source.liveKeys g := by
    rw [hcopy.keys, Call.touches, if_pos hg]
    exact dedup_append_of_nodup (h g) ((List.filter_sublist.map _).nodup (hs g))
  -- keys that the source does not hold are not asked for anything
  have hfront : ((t.keys g).filter (· ∉ source.liveKeys g)).map
      ((t.copyFrom source choice).1.entry g) =
        (t.entries g).filter (·.key ∉ source.liveKeys g) := by
    rw [entries_eq_map h g, List.filter_map]
    refine (List.map_congr_left fun key hkey => ?_).trans
      (congrArg (List.map _) (List.filter_congr fun key _ => ?_))
    · have hnot : key ∉ source.liveKeys g := by simpa using (List.mem_filter.mp hkey).2
      rw [hcopy.entry, asks_copyFrom_of_notMem hnot]
      rfl
    · rw [Function.comp_apply, key_entry]
  have hback : (source.liveKeys g).map ((t.copyFrom source choice).1.entry g) =
      (source.live g).map fun entry => ((t.entry g entry.key).write entry.values).1 := by
    rw [liveKeys, List.map_map]
    refine List.map_congr_left fun entry hmem => ?_
    rw [Function.comp_apply, hcopy.entry, asks_copyFrom_of_live hs hg hmem,
      Entry.rewrite_singleton]
  rw [live, entries_eq_map hcopy.keyed, hkeys, List.map_append, hfront, hback, List.filter_append,
    List.filter_comm, ← live]
  congr 1
  rw [List.filter_eq_self]
  intro entry hmem
  obtain ⟨original, horiginal, rfl⟩ := List.mem_map.mp hmem
  have hlive : original.values.isEmpty = false := isRemoved_of_mem_live horiginal
  rw [Entry.isRemoved_write, hlive]
  rfl

end Copy

/-! ## What a table records -/

/-- A proper call asks an entry for one list of values at most. -/
theorem asks_cases {c : Call κ} (hc : c.Proper) (g : Group) (key : κ) :
    c.asks g key = [] ∨ ∃ values, c.asks g key = [values] := by
  cases c with
  | copyFrom source choice =>
    by_cases hmem : key ∈ source.liveKeys g
    · obtain ⟨entry, hlive, rfl⟩ := List.mem_map.mp hmem
      cases hg : g.isIn choice with
      | true => exact .inr ⟨entry.values, asks_copyFrom_of_live hc hg hlive⟩
      | false => exact .inl (by rw [Call.asks, if_neg (by simp [hg])])
    · exact .inl (asks_copyFrom_of_notMem hmem)
  | _ =>
    rw [Call.asks]
    split
    · exact .inr ⟨_, rfl⟩
    · exact .inl rfl

/-- Whether a call is about a key of a group. -/
def Call.Concerns (c : Call κ) (g : Group) (key : κ) : Prop := c.asks g key ≠ []

/-- What a table holds after some calls. -/
structure Records (t : Table κ) (calls : List (Call κ)) : Prop where
  /-- A group holds a key once. -/
  keyed : t.Keyed
  /-- The keys of a group stand in the order in which they were last touched. -/
  keys : ∀ g, t.keys g = (calls.flatMap (·.touches g)).dedup
  /-- What is stored under a key is what the last call about it asked for: the values that it wrote,
  or none if it removed them. -/
  stored : ∀ g key,
    SameValues (t.valuesAt g key) ((calls.flatMap (·.asks g key)).getLast?.getD [])
  /-- The entry that counts is the live one of the highest group that has one. -/
  cascaded : ∀ key g entry, t.cascaded? key = some (g, entry) ↔
    (entry ∈ t.live g ∧ entry.key = key) ∧ ∀ g', g.rank < g'.rank → key ∉ t.liveKeys g'
  /-- No entry counts exactly if no group has a live one. -/
  cascaded_none : ∀ key, t.cascaded? key = none ↔ ∀ g, key ∉ t.liveKeys g

/-- What a call does to a table, and what it reports. -/
structure Executes (t : Table κ) (c : Call κ) : Prop where
  /-- A change is reported exactly if values of a key that the call is about compare as different
  before and after it. -/
  report : (t.after c).2 = true ↔
    ∃ g key, c.Concerns g key ∧ (t.valuesAt g key == (t.after c).1.valuesAt g key) = false
  /-- The entries of all other keys are as before. -/
  others : ∀ g key, ¬c.Concerns g key → (t.after c).1.entry g key = t.entry g key
  /-- A copy leaves the live entries that it does not write in their order, and after them those of
  the source in theirs; groups that are not copied it leaves alone. -/
  copied : ∀ source choice, c = .copyFrom source choice →
    (∀ g, g.isIn choice = true → ∃ moved,
      (t.after c).1.live g = (t.live g).filter (·.key ∉ source.liveKeys g) ++ moved ∧
        List.Forall₂ (fun entry original => entry.key = original.key ∧
          SameValues entry.values original.values) moved (source.live g)) ∧
    ∀ g, g.isIn choice = false → (t.after c).1.entries g = t.entries g

/-- All tables that start empty keep a record of the calls. -/
theorem records_of_run (calls : List (Call κ)) : (run {} calls).Records calls where
  keyed := keyed_run keyed_empty calls
  keys g := by
    rw [run, (follows_run keyed_empty calls).keys]
    simp [Table.keys]
  stored g key := by
    rw [Table.valuesAt, entry_run keyed_empty]
    have hempty : (Table.entry ({} : Table κ) g key).values = [] := by
      simp [Table.entry, find?]
    rw [← hempty]
    exact Entry.sameValues_rewrite _ _
  cascaded _ _ _ := cascaded?_eq_some_iff (keyed_run keyed_empty calls)
  cascaded_none _ := cascaded?_eq_none_iff (keyed_run keyed_empty calls)

/-- Calls do what they are to do on all tables with one entry for a key. -/
theorem executes_of_keyed (h : t.Keyed) {c : Call κ} (hc : c.Proper) : t.Executes c where
  report := by
    rw [(follows_after h c).report]
    refine exists_congr fun g => exists_congr fun key => ?_
    rw [Table.valuesAt, Table.valuesAt, (follows_after h c).entry, Call.Concerns]
    rcases asks_cases hc g key with hnone | ⟨values, hone⟩
    · simp [hnone]
    · simp [hone, Entry.write_snd]
  others g key hnot := by
    rw [(follows_after h c).entry, not_not.mp hnot]
    rfl
  copied source choice hcopy := by
    subst hcopy
    refine ⟨fun g hg => ⟨_, live_copyFrom h hc hg, ?_⟩, fun g hg => ?_⟩
    · rw [List.forall₂_map_left_iff, List.forall₂_same]
      intro entry hmem
      exact ⟨by rw [Entry.key_write, key_entry], Entry.sameValues_write _ _⟩
    · have hcopy := follows_copyFrom h source choice
      have hkeys : (t.copyFrom source choice).1.keys g = t.keys g := by
        rw [hcopy.keys, Call.touches, if_neg (by simp [hg]), List.append_nil]
        exact List.Nodup.dedup (h g)
      rw [after, entries_eq_map hcopy.keyed, hkeys, entries_eq_map h]
      refine List.map_congr_left fun key _ => ?_
      rw [hcopy.entry, Call.asks, if_neg (by simp [hg])]
      rfl

/-- **Tables are maps in the order of the last writes.** After any calls on an empty table, it holds
what `Records` says, and does with every further call what `Executes` says. -/
theorem run_records (calls : List (Call κ)) :
    (run {} calls).Records calls ∧ ∀ c : Call κ, c.Proper → (run {} calls).Executes c :=
  ⟨records_of_run calls, fun _ hc => executes_of_keyed (keyed_run keyed_empty calls) hc⟩

/-- A removed key keeps its place, a key that is written again moves, and a copy moves what it
writes. -/
theorem run_records_copy :
    (run {} [.set .inline 1 [.auto], .set .inline 2 [.none], .remove .inline 1,
        .set .inline 3 [.auto], .write .inline 2 [.none]] : Table Nat).keys .inline = [1, 3, 2] ∧
      (run {} [.set .inline 4 [.none], .set .inline 3 [.auto]] : Table Nat).Keyed ∧
      (run {} [.set .inline 1 [.auto], .set .inline 2 [.none], .remove .inline 1,
        .set .inline 3 [.auto], .write .inline 2 [.none]] : Table Nat).Executes
          (.copyFrom (run {} [.set .inline 4 [.none], .set .inline 3 [.auto]]) (some .inline)) := by
  have hsource : (run {} [.set .inline 4 [.none], .set .inline 3 [.auto]] : Table Nat).Keyed :=
    keyed_run keyed_empty _
  exact ⟨by decide, hsource, (run_records _).2 _ hsource⟩

end Table

end FlexStyle
