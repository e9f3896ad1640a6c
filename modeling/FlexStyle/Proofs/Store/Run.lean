import FlexStyle.Proofs.Store

/-!
# Runs of a box store

A host may work on a box store alone: make boxes, give them up, change their records, mark them and
collect the marks. It may name any box, one that it has given up before and one that never was. The
vacant slots are known twice over, by what is in the slots and by the list of free ones, and the
size of the store is the difference of two lengths; that this comes out right rests on
`BoxStore.Exact`, which every command keeps.

- `BoxCommand`, `BoxStore.after`, `BoxStore.run`: the commands, and the store after them.
- `BoxStore.subject?`: the box that a command works on.
- `BoxStore.slot?_after_of_ne`, `BoxStore.style?_after_of_ne`: all other boxes are left alone.
- `BoxStore.run_exact`: what holds of a store after any commands.
-/

namespace FlexStyle

/-- What a host may ask of a box store. -/
inductive BoxCommand where
  | create
  | remove (id : BoxId)
  | modify (id : BoxId) (change : BoxStyle → BoxStyle)
  | markDirty (id : BoxId)
  | takeDirty

namespace BoxStore

/-- The store after a command. -/
def after (store : BoxStore) : BoxCommand → BoxStore
  | .create => store.create.2
  | .remove id => store.remove id
  | .modify id change => store.modify id change
  | .markDirty id => store.markDirty id
  | .takeDirty => store.takeDirty.2

/-- The store after some commands in turn. -/
def run (store : BoxStore) (commands : List BoxCommand) : BoxStore := commands.foldl after store

/-- The box that a command works on: the one that it names, or the one that it makes. The collection
of marks works on none in particular. -/
def subject? (store : BoxStore) : BoxCommand → Option BoxId
  | .create => some store.create.1
  | .remove id | .modify id _ | .markDirty id => some id
  | .takeDirty => none

variable {store : BoxStore}

/-! ## Free slots along a run -/

theorem exact_after (h : store.Exact) (c : BoxCommand) : (store.after c).Exact := by
  cases c with
  | create => exact exact_create h
  | remove id => exact exact_remove h id
  | modify id change => exact exact_modifySlot h id _
  | markDirty id => exact exact_modifySlot h id _
  | takeDirty => exact exact_takeDirty h

theorem initial_after (store : BoxStore) (c : BoxCommand) :
    (store.after c).initial = store.initial := by
  cases c with
  | create => exact initial_create store
  | remove id => exact initial_remove store id
  | modify id change => rfl
  | markDirty id => rfl
  | takeDirty => rfl

theorem exact_run (h : store.Exact) (commands : List BoxCommand) : (store.run commands).Exact := by
  induction commands generalizing store with
  | nil => exact h
  | cons c commands ih => exact ih (exact_after h c)

theorem initial_run (store : BoxStore) (commands : List BoxCommand) :
    (store.run commands).initial = store.initial := by
  induction commands generalizing store with
  | nil => rfl
  | cons c commands ih => exact (ih (store.after c)).trans (initial_after store c)

/-- There are no more free slots than slots. -/
theorem Exact.length_free_le (h : store.Exact) : store.free.length ≤ store.slots.size := by
  have hsubset : store.free ⊆ List.range store.slots.size :=
    fun i hi => List.mem_range.mpr ((h.mem_free i).mp hi).1
  calc store.free.length
      ≤ (List.range store.slots.size).length := h.free_nodup.length_le_of_subset hsubset
    _ = store.slots.size := List.length_range

/-- A slot is in the free list once if it is vacant, and otherwise not at all. -/
theorem Exact.count_free (h : store.Exact) (i : Nat) :
    store.free.count i = if i < store.slots.size ∧ store.slot? ⟨i⟩ = none then 1 else 0 := by
  rw [h.free_nodup.count]
  exact if_congr (h.mem_free i) rfl rfl

theorem remove_of_vacant {id : BoxId} (h : store.slot? id = none) : store.remove id = store := by
  rw [remove, h]

/-! ## Boxes that a command does not work on -/

theorem slot?_after_of_ne (h : store.Exact) {c : BoxCommand} {id : BoxId} (hc : c ≠ .takeDirty)
    (hid : store.subject? c ≠ some id) : (store.after c).slot? id = store.slot? id := by
  have hne : ∀ {other}, store.subject? c = some other → id ≠ other := by
    rintro other hother rfl
    exact hid hother
  cases c with
  | create => exact slot?_create_of_ne h (hne rfl)
  | remove other => exact (slot?_remove store other id).trans (if_neg (hne rfl))
  | modify other change => exact (slot?_modifySlot store other id _).trans (if_neg (hne rfl))
  | markDirty other => exact (slot?_modifySlot store other id _).trans (if_neg (hne rfl))
  | takeDirty => exact absurd rfl hc

/-- The collection of marks leaves all records alone. -/
theorem style?_after_of_ne (h : store.Exact) {c : BoxCommand} {id : BoxId}
    (hid : store.subject? c ≠ some id) : (store.after c).style? id = store.style? id := by
  by_cases hc : c = .takeDirty
  · subst hc
    exact style?_takeDirty store id
  · rw [style?, slot?_after_of_ne h hc hid, style?]

/-! ## The whole run -/

/-- After any commands, the free list holds each vacant slot once and nothing else, and the size of
the store is the number of the boxes that are there. A new box gets a slot that no box is in, and
starts with the initial record and a mark. Giving up a box that is not there changes nothing, and no
command changes the record of a box that it does not work on, nor, but for the collection of marks,
its mark. -/
theorem run_exact (webDefaults : Bool) (commands : List BoxCommand) :
    let store := (empty webDefaults).run commands
    (∀ i, store.free.count i =
      if i < store.slots.size ∧ store.slot? ⟨i⟩ = none then 1 else 0) ∧
    store.free.length ≤ store.slots.size ∧
    store.size = store.occupied.length ∧
    store.slot? store.create.1 = none ∧
    store.create.2.slot? store.create.1 = some ⟨.initial webDefaults, true⟩ ∧
    (∀ id, store.slot? id = none → store.remove id = store) ∧
    ∀ c id, store.subject? c ≠ some id →
      (store.after c).style? id = store.style? id ∧
      (c ≠ .takeDirty → (store.after c).isDirty id = store.isDirty id) := by
  intro store
  have hexact : store.Exact := exact_run (exact_empty webDefaults) commands
  have hinitial : store.initial = .initial webDefaults := initial_run _ commands
  refine ⟨hexact.count_free, hexact.length_free_le, (length_occupied hexact).symm,
    slot?_create_fst hexact, ?_, fun id => remove_of_vacant, fun c id hid => ⟨?_, fun hc => ?_⟩⟩
  · rw [slot?_create_self hexact, hinitial]
  · exact style?_after_of_ne hexact hid
  · rw [isDirty, slot?_after_of_ne hexact hc hid, isDirty]

/-- A box is given up twice over and one that never was is given up, and then two boxes are made:
the second of them does not share the slot of the first. -/
theorem run_exact_twice :
    let store := (empty true).run [.create, .create, .takeDirty, .remove ⟨0⟩, .remove ⟨0⟩,
      .remove ⟨7⟩, .create]
    store.free.count 0 = 0 ∧ store.size = 2 ∧ store.create.1 = ⟨2⟩ ∧
      store.slot? ⟨2⟩ = none ∧ store.remove ⟨2⟩ = store ∧
      (store.after (.remove ⟨0⟩)).style? ⟨1⟩ = some (.initial true) ∧
      (store.after (.remove ⟨0⟩)).isDirty ⟨1⟩ = false := by
  intro store
  obtain ⟨hsize, hlive, hnext, hstyle, hdirty⟩ : store.occupied.length = 2 ∧
      ¬(0 < store.slots.size ∧ store.slot? ⟨0⟩ = none) ∧ store.create.1 = ⟨2⟩ ∧
      store.style? ⟨1⟩ = some (.initial true) ∧ store.isDirty ⟨1⟩ = false := by
    decide +kernel
  have hother : store.subject? (.remove ⟨0⟩) ≠ some ⟨1⟩ := by decide
  obtain ⟨hcount, -, hlength, hvacant, -, hremove, hleft⟩ := run_exact true
    [.create, .create, .takeDirty, .remove ⟨0⟩, .remove ⟨0⟩, .remove ⟨7⟩, .create]
  have hnone : store.slot? ⟨2⟩ = none := hnext ▸ hvacant
  obtain ⟨hsame, hmark⟩ := hleft (.remove ⟨0⟩) ⟨1⟩ hother
  exact ⟨(hcount 0).trans (if_neg hlive), hlength.trans hsize, hnext, hnone, hremove _ hnone,
    hsame.trans hstyle, (hmark nofun).trans hdirty⟩

end BoxStore

end FlexStyle
