import FlexStyle.Box.Store
import Mathlib.Data.List.Nodup

/-!
# The slots of a box store

What each operation of the store does to a slot, and the invariant on which all of it rests: the
list of free slots holds exactly the vacant ones, each once.

- `BoxStore.Exact`: the invariant; `BoxStore.exact_create`, `BoxStore.exact_remove` and
  `BoxStore.exact_modifySlot` say that it is kept.
- `BoxStore.slot?_create_self`, `BoxStore.slot?_create_of_ne`, `BoxStore.slot?_remove`,
  `BoxStore.slot?_modifySlot`: the slots afterwards.
- `BoxStore.occupied`: the boxes that are there; `BoxStore.length_occupied` says that the size of a
  store counts them.
-/

namespace FlexStyle.BoxStore

/-- The free list holds exactly the vacant slots, each once. -/
structure Exact (store : BoxStore) : Prop where
  free_nodup : store.free.Nodup
  mem_free : ∀ i, i ∈ store.free ↔ i < store.slots.size ∧ store.slot? ⟨i⟩ = none

/-- A box is in one of the slots. -/
theorem lt_size_of_slot? {store : BoxStore} {id : BoxId} {box : BoxSlot}
    (h : store.slot? id = some box) : id.number < store.slots.size := by
  by_contra hn
  rw [slot?, Array.getElem?_eq_none (Nat.not_lt.mp hn)] at h
  cases h

theorem exact_empty (webDefaults : Bool) : (empty webDefaults).Exact where
  free_nodup := List.nodup_nil
  mem_free i := by simp [empty]

/-! ## Changes of one slot -/

/-- A change of one box leaves the others as they are. -/
theorem slot?_modifySlot (store : BoxStore) (id id' : BoxId) (change : BoxSlot → BoxSlot) :
    (store.modifySlot id change).slot? id' =
      if id' = id then (store.slot? id').map change else store.slot? id' := by
  obtain ⟨i⟩ := id
  obtain ⟨j⟩ := id'
  simp only [slot?, modifySlot, Array.getElem?_modify, BoxId.mk.injEq]
  by_cases h : i = j
  · subst h
    cases store.slots[i]? <;> simp
  · simp [h, Ne.symm h]

/-- A change of one box neither occupies nor vacates a slot. -/
theorem exact_modifySlot {store : BoxStore} (h : store.Exact) (id : BoxId)
    (change : BoxSlot → BoxSlot) : (store.modifySlot id change).Exact where
  free_nodup := h.free_nodup
  mem_free i := by
    have hsize : (store.modifySlot id change).slots.size = store.slots.size := by
      simp [modifySlot]
    rw [hsize, slot?_modifySlot]
    refine (h.mem_free i).trans (and_congr_right fun _ => ?_)
    split <;> simp

/-- What a slot holds after it has been overwritten. -/
theorem slot?_setIfInBounds (store : BoxStore) (i : Nat) (box : Option BoxSlot) (id : BoxId)
    (hi : i < store.slots.size) :
    (store.slots.setIfInBounds i box)[id.number]?.join =
      if id.number = i then box else store.slot? id := by
  rw [Array.getElem?_setIfInBounds, slot?]
  by_cases h : i = id.number
  · subst h
    simp [hi]
  · simp [h, Ne.symm h]

/-! ## Taking a slot -/

/-- The slot for a new box is vacant. -/
theorem slot?_create_fst {store : BoxStore} (h : store.Exact) :
    store.slot? store.create.1 = none := by
  unfold create
  cases hfree : store.free with
  | nil => simp [slot?]
  | cons i free => exact ((h.mem_free i).mp (hfree ▸ List.mem_cons_self)).2

/-- A new box is initial and marked, and the others are as they were. -/
theorem slot?_create (store : BoxStore) (h : store.Exact) (id : BoxId) :
    store.create.2.slot? id =
      if id = store.create.1 then some ⟨store.initial, true⟩ else store.slot? id := by
  obtain ⟨j⟩ := id
  unfold create
  cases hfree : store.free with
  | nil =>
    simp only [slot?, Array.getElem?_push, BoxId.mk.injEq]
    split <;> rfl
  | cons i free =>
    have hi := ((h.mem_free i).mp (hfree ▸ List.mem_cons_self)).1
    exact (slot?_setIfInBounds store i _ ⟨j⟩ hi).trans (by simp)

@[simp] theorem slot?_create_self {store : BoxStore} (h : store.Exact) :
    store.create.2.slot? store.create.1 = some ⟨store.initial, true⟩ := by
  rw [slot?_create store h, if_pos rfl]

theorem slot?_create_of_ne {store : BoxStore} (h : store.Exact) {id : BoxId}
    (hne : id ≠ store.create.1) : store.create.2.slot? id = store.slot? id := by
  rw [slot?_create store h, if_neg hne]

@[simp] theorem initial_create (store : BoxStore) : store.create.2.initial = store.initial := by
  unfold create
  split <;> rfl

/-- Creation takes the slot that it occupies off the list of vacant ones. -/
theorem exact_create {store : BoxStore} (h : store.Exact) : store.create.2.Exact := by
  have hslot := slot?_create store h
  cases hfree : store.free with
  | nil =>
    -- no slot is free, and a new one is added at the end
    have hcreate : store.create =
        (⟨store.slots.size⟩,
          { store with slots := store.slots.push (some ⟨store.initial, true⟩) }) := by
      simp only [create, hfree]
    rw [hcreate] at hslot ⊢
    refine { free_nodup := h.free_nodup, mem_free := fun i => ?_ }
    rw [h.mem_free i, hslot]
    simp only [Array.size_push, BoxId.mk.injEq]
    by_cases hi : i = store.slots.size
    · simp [hi]
    · rw [if_neg hi]
      exact and_congr_left fun _ => by omega
  | cons k free =>
    -- the first free slot is taken, and occurs nowhere else among the free ones
    have hnd := hfree ▸ h.free_nodup
    have hcreate : store.create =
        (⟨k⟩, { store with
          slots := store.slots.setIfInBounds k (some ⟨store.initial, true⟩), free }) := by
      simp only [create, hfree]
    rw [hcreate] at hslot ⊢
    refine { free_nodup := (List.nodup_cons.mp hnd).2, mem_free := fun i => ?_ }
    have hmem := h.mem_free i
    rw [hfree, List.mem_cons] at hmem
    rw [hslot]
    simp only [Array.size_setIfInBounds, BoxId.mk.injEq]
    by_cases hi : i = k
    · subst hi
      simp [(List.nodup_cons.mp hnd).1]
    · rw [if_neg hi, ← hmem]
      simp [hi]

/-! ## Giving a slot up -/

/-- A box that is removed leaves its slot vacant, and the others are as they were. -/
theorem slot?_remove (store : BoxStore) (id id' : BoxId) :
    (store.remove id).slot? id' = if id' = id then none else store.slot? id' := by
  unfold remove
  cases hslot : store.slot? id with
  | none =>
    by_cases h : id' = id
    · rw [if_pos h, h, hslot]
    · rw [if_neg h]
  | some box =>
    obtain ⟨j⟩ := id'
    exact (slot?_setIfInBounds store id.number none ⟨j⟩ (lt_size_of_slot? hslot)).trans (by
      obtain ⟨i⟩ := id
      simp)

@[simp] theorem initial_remove (store : BoxStore) (id : BoxId) :
    (store.remove id).initial = store.initial := by
  unfold remove
  split <;> rfl

/-- Removal puts the slot that it vacates on the list of vacant ones. -/
theorem exact_remove {store : BoxStore} (h : store.Exact) (id : BoxId) :
    (store.remove id).Exact := by
  have hafter := slot?_remove store id
  unfold remove at hafter ⊢
  cases hslot : store.slot? id with
  | none => exact h
  | some box =>
    rw [hslot] at hafter
    have hlt := lt_size_of_slot? hslot
    obtain ⟨i⟩ := id
    -- a slot that holds a box is given up once only
    have hnotMem : i ∉ store.free := by
      rw [h.mem_free, hslot]
      simp
    refine { free_nodup := List.nodup_cons.mpr ⟨hnotMem, h.free_nodup⟩, mem_free := fun j => ?_ }
    have hj := hafter ⟨j⟩
    dsimp only at hj ⊢
    rw [hj, List.mem_cons, h.mem_free j, Array.size_setIfInBounds]
    simp only [BoxId.mk.injEq]
    by_cases hij : j = i
    · subst hij
      simpa using hlt
    · simp [hij]

/-! ## Records -/

/-- A record that is written is in its box, if there is one, and in no other. -/
theorem style?_write (store : BoxStore) (id id' : BoxId) (style : BoxStyle) (changed : Bool) :
    (store.write id style changed).style? id' =
      if id' = id then (store.style? id').map fun _ => style else store.style? id' := by
  rw [write, style?, slot?_modifySlot, style?]
  split
  · cases store.slot? id' <;> rfl
  · rfl

/-- Writing neither occupies nor vacates a slot. -/
theorem exact_write {store : BoxStore} (h : store.Exact) (id : BoxId) (style : BoxStyle)
    (changed : Bool) : (store.write id style changed).Exact :=
  exact_modifySlot h id _

/-! ## Counting boxes -/

/-- The boxes that are there, in the order of their numbers. -/
def occupied (store : BoxStore) : List BoxId :=
  ((List.range store.slots.size).map BoxId.mk).filter fun id => (store.slot? id).isSome

/-- The occupied slots are those with a box. -/
theorem mem_occupied {store : BoxStore} {id : BoxId} :
    id ∈ store.occupied ↔ (store.slot? id).isSome = true := by
  simp only [occupied, List.mem_filter, List.mem_map, List.mem_range, and_iff_right_iff_imp]
  intro h
  obtain ⟨box, hbox⟩ := Option.isSome_iff_exists.mp h
  exact ⟨id.number, lt_size_of_slot? hbox, rfl⟩

theorem pairwise_ids (store : BoxStore) :
    ((List.range store.slots.size).map BoxId.mk).Pairwise fun a b => a.number < b.number :=
  List.pairwise_map.mpr List.pairwise_lt_range

theorem nodup_occupied (store : BoxStore) : store.occupied.Nodup := by
  refine (store.pairwise_ids.imp fun h => ?_).filter _
  rintro rfl
  exact Nat.lt_irrefl _ h

/-- The slots that are not free are those that hold boxes. -/
theorem length_occupied {store : BoxStore} (h : store.Exact) :
    store.occupied.length = store.size := by
  -- the free slots are the others
  have hfree : store.free.Perm
      ((List.range store.slots.size).filter fun i => !(store.slot? ⟨i⟩).isSome) := by
    refine (List.perm_ext_iff_of_nodup h.free_nodup (List.nodup_range.filter _)).mpr fun i => ?_
    rw [h.mem_free, List.mem_filter, List.mem_range, Bool.not_eq_true', Option.isSome_eq_false_iff,
      Option.isNone_iff_eq_none]
  have hcount := List.length_eq_length_filter_add (l := List.range store.slots.size)
    fun i => (store.slot? ⟨i⟩).isSome
  rw [List.length_range, ← hfree.length_eq] at hcount
  have hlength : store.occupied.length =
      ((List.range store.slots.size).filter fun i => (store.slot? ⟨i⟩).isSome).length := by
    rw [occupied, List.filter_map, List.length_map]
    rfl
  rw [hlength, size]
  omega

/-! ## Marks -/

/-- A mark is on a box that is there. -/
theorem isDirty_iff {store : BoxStore} {id : BoxId} :
    store.isDirty id = true ↔ ∃ box, store.slot? id = some box ∧ box.dirty = true :=
  Option.any_eq_true _ _

/-- The boxes that are collected are those that are marked. -/
theorem mem_takeDirty {store : BoxStore} {id : BoxId} :
    id ∈ store.takeDirty.1 ↔ store.isDirty id = true := by
  simp only [takeDirty, List.mem_filter, List.mem_map, List.mem_range, and_iff_right_iff_imp]
  intro h
  obtain ⟨box, hbox, -⟩ := isDirty_iff.mp h
  exact ⟨id.number, lt_size_of_slot? hbox, rfl⟩

/-- The boxes with marks are listed in the order of their slots. -/
theorem pairwise_takeDirty (store : BoxStore) :
    store.takeDirty.1.Pairwise fun a b => a.number < b.number :=
  store.pairwise_ids.filter _

/-- Reading the marks takes them away, and nothing else. -/
theorem slot?_takeDirty (store : BoxStore) (id : BoxId) :
    store.takeDirty.2.slot? id =
      (store.slot? id).map fun box => { box with dirty := false } := by
  simp only [takeDirty, slot?, Array.getElem?_map]
  cases store.slots[id.number]? <;> rfl

theorem style?_takeDirty (store : BoxStore) (id : BoxId) :
    store.takeDirty.2.style? id = store.style? id := by
  rw [style?, slot?_takeDirty, style?]
  cases store.slot? id <;> rfl

/-- Reading the marks neither occupies nor vacates a slot. -/
theorem exact_takeDirty {store : BoxStore} (h : store.Exact) : store.takeDirty.2.Exact where
  free_nodup := h.free_nodup
  mem_free i := by
    have hsize : store.takeDirty.2.slots.size = store.slots.size := by simp [takeDirty]
    rw [hsize, slot?_takeDirty, Option.map_eq_none_iff]
    exact h.mem_free i

/-- No box is marked after the marks have been collected. -/
theorem isDirty_takeDirty (store : BoxStore) (id : BoxId) :
    store.takeDirty.2.isDirty id = false := by
  rw [isDirty, slot?_takeDirty]
  cases store.slot? id <;> rfl

end FlexStyle.BoxStore
