import FlexStyle.Forest
import Mathlib.Data.List.Nodup
import Mathlib.Data.List.Perm.Basic

/-!
# Paths in forests

The theory of the operations that change a forest, for forests in which no name occurs twice.

- `Forest.toList_prune_perm`, `Forest.toList_graft_perm`: which names there are afterwards.
- `Forest.path?_prune`, `Forest.path?_graft_of_mem`, `Forest.path?_treeAt`: what is above a name
  afterwards.
- `Forest.mem_path_iff`: a name is above another one exactly if that one is in its tree.
- `Forest.parent?_graft_of_ne`, `Forest.parent?_detached_of_ne`: moving a tree gives a new parent to
  its root alone.
- `Forest.Within`: the trees that are found beneath their own roots in a larger forest. A walk down
  such a row meets every child of the names it passes (`Forest.Within.mem_roots_of_parent?`).
-/

namespace FlexStyle.Forest

variable {α : Type}

/-! ## Names -/

@[simp] theorem nil_append (f : Forest α) : nil ++ f = f := rfl

@[simp] theorem tree_append (root : α) (beneath beside f : Forest α) :
    tree root beneath beside ++ f = tree root beneath (beside ++ f) := rfl

@[simp] theorem toList_nil : (nil : Forest α).toList = [] := rfl

@[simp] theorem toList_tree (root : α) (beneath beside : Forest α) :
    (tree root beneath beside).toList = root :: (beneath.toList ++ beside.toList) := rfl

/-- The names of two rows are those of the first one and then those of the second one. -/
@[simp] theorem toList_append (f g : Forest α) : (f ++ g).toList = f.toList ++ g.toList := by
  induction f with
  | nil => rfl
  | tree root beneath beside _ ih => simp [ih]

theorem mem_toList_of_mem_roots {f : Forest α} {a : α} (h : a ∈ f.roots) : a ∈ f.toList := by
  induction f with
  | nil => exact h
  | tree root beneath beside _ ih =>
    rcases List.mem_cons.mp h with rfl | h
    · exact List.mem_cons_self
    · exact List.mem_cons_of_mem _ (List.mem_append_right _ (ih h))

/-- A name in a row is the first root, beneath it or beside it. -/
theorem mem_toList_tree {root a : α} {beneath beside : Forest α} :
    a ∈ (tree root beneath beside).toList ↔
      a = root ∨ a ∈ beneath.toList ∨ a ∈ beside.toList := by
  rw [toList_tree, List.mem_cons, List.mem_append]

/-- What it means that no name occurs twice, one tree at a time. -/
theorem nodup_tree_iff {root : α} {beneath beside : Forest α} :
    (tree root beneath beside).toList.Nodup ↔
      (root ∉ beneath.toList ∧ root ∉ beside.toList) ∧ beneath.toList.Nodup ∧
        beside.toList.Nodup ∧ ∀ a ∈ beneath.toList, a ∉ beside.toList := by
  rw [toList_tree, List.nodup_cons, List.nodup_append', List.mem_append, not_or]
  rfl

variable [DecidableEq α]

/-! ## Names that do not occur -/

/-- Just the names in a forest have a path. -/
theorem path?_eq_none_iff {f : Forest α} {a : α} : f.path? a = none ↔ a ∉ f.toList := by
  induction f with
  | nil => simp [path?]
  | tree root beneath beside ihBeneath ihBeside =>
    by_cases hroot : root = a
    · simp [path?, hroot]
    · rw [path?, if_neg hroot]
      cases hb : beneath.path? a with
      | some path =>
        have hmem : a ∈ beneath.toList := by
          by_contra hn
          rw [ihBeneath.mpr hn] at hb
          cases hb
        simp [hmem]
      | none => simp [ihBeside, ihBeneath.mp hb, Ne.symm hroot]

/-- Just the names in a forest have something beneath them. -/
theorem beneath?_eq_none_iff {f : Forest α} {a : α} : f.beneath? a = none ↔ a ∉ f.toList := by
  induction f with
  | nil => simp [beneath?]
  | tree root beneath beside ihBeneath ihBeside =>
    by_cases hroot : root = a
    · simp [beneath?, hroot]
    · rw [beneath?, if_neg hroot]
      cases hb : beneath.beneath? a with
      | some found =>
        have hmem : a ∈ beneath.toList := by
          by_contra hn
          rw [ihBeneath.mpr hn] at hb
          cases hb
        simp [hmem]
      | none => simp [ihBeside, ihBeneath.mp hb, Ne.symm hroot]

theorem mem_of_beneath? {f beneath : Forest α} {a : α} (h : f.beneath? a = some beneath) :
    a ∈ f.toList := by
  by_contra hn
  rw [beneath?_eq_none_iff.mpr hn] at h
  cases h

theorem path?_isSome_iff {f : Forest α} {a : α} : (f.path? a).isSome ↔ a ∈ f.toList := by
  rw [← Option.ne_none_iff_isSome, ne_eq, path?_eq_none_iff, not_not]

/-- Nothing is taken out at a name that does not occur. -/
theorem prune_of_notMem {f : Forest α} {a : α} (h : a ∉ f.toList) : f.prune a = f := by
  induction f with
  | nil => rfl
  | tree root beneath beside ihBeneath ihBeside =>
    rw [toList_tree, List.mem_cons, List.mem_append, not_or, not_or] at h
    rw [prune, if_neg (Ne.symm h.1), ihBeneath h.2.1, ihBeside h.2.2]

/-- Nothing is added at a name that does not occur. -/
theorem graft_of_notMem {f row : Forest α} {a : α} (h : a ∉ f.toList) : f.graft a row = f := by
  induction f with
  | nil => rfl
  | tree root beneath beside ihBeneath ihBeside =>
    rw [toList_tree, List.mem_cons, List.mem_append, not_or, not_or] at h
    rw [graft, if_neg (Ne.symm h.1), ihBeneath h.2.1, ihBeside h.2.2]

/-! ## The tree of a name -/

theorem beneath?_root {a : α} (beneath beside : Forest α) :
    (tree a beneath beside).beneath? a = some beneath := by
  rw [beneath?, if_pos rfl]

theorem beneath?_beneath {root a : α} {beneath beside : Forest α}
    (hroot : root ≠ a) (h : a ∈ beneath.toList) :
    (tree root beneath beside).beneath? a = beneath.beneath? a := by
  rw [beneath?, if_neg hroot]
  cases hb : beneath.beneath? a with
  | some found => rfl
  | none => exact absurd h (beneath?_eq_none_iff.mp hb)

theorem beneath?_beside {root a : α} {beneath beside : Forest α}
    (hroot : root ≠ a) (h : a ∉ beneath.toList) :
    (tree root beneath beside).beneath? a = beside.beneath? a := by
  rw [beneath?, if_neg hroot, beneath?_eq_none_iff.mpr h]

theorem treeAt_root {a : α} (beneath beside : Forest α) :
    (tree a beneath beside).treeAt a = tree a beneath nil := by
  rw [treeAt, beneath?_root]

theorem treeAt_beneath {root a : α} {beneath beside : Forest α}
    (hroot : root ≠ a) (h : a ∈ beneath.toList) :
    (tree root beneath beside).treeAt a = beneath.treeAt a := by
  rw [treeAt, beneath?_beneath hroot h, treeAt]

theorem treeAt_beside {root a : α} {beneath beside : Forest α}
    (hroot : root ≠ a) (h : a ∉ beneath.toList) :
    (tree root beneath beside).treeAt a = beside.treeAt a := by
  rw [treeAt, beneath?_beside hroot h, treeAt]

/-- The tree of a name that occurs is one tree, with that name as its root. -/
theorem exists_treeAt_eq {f : Forest α} {a : α} (h : a ∈ f.toList) :
    ∃ beneath, f.beneath? a = some beneath ∧ f.treeAt a = tree a beneath nil := by
  rw [treeAt]
  cases hb : f.beneath? a with
  | some beneath => exact ⟨beneath, rfl, rfl⟩
  | none => exact absurd h (beneath?_eq_none_iff.mp hb)

/-- A name is in its own tree. -/
theorem mem_treeAt_self {f : Forest α} {a : α} (h : a ∈ f.toList) :
    a ∈ (f.treeAt a).toList := by
  obtain ⟨beneath, -, htree⟩ := exists_treeAt_eq h
  rw [htree]
  exact List.mem_cons_self

/-- Taking a tree out divides the names. -/
theorem toList_prune_perm {f : Forest α} (hnd : f.toList.Nodup) (a : α) :
    f.toList.Perm ((f.treeAt a).toList ++ (f.prune a).toList) := by
  induction f with
  | nil => simp [treeAt, beneath?, prune]
  | tree root beneath beside ihBeneath ihBeside =>
    obtain ⟨⟨hr₁, hr₂⟩, hnd₁, hnd₂, hdisj⟩ := nodup_tree_iff.mp hnd
    by_cases hroot : root = a
    · subst hroot
      rw [treeAt_root, prune, if_pos rfl]
      simp
    · rw [prune, if_neg hroot]
      -- the tree is taken out on one side, and the other side stays as it is
      by_cases hb : a ∈ beneath.toList
      · rw [treeAt_beneath hroot hb, prune_of_notMem (hdisj a hb), toList_tree, toList_tree]
        refine (List.Perm.cons root ((ihBeneath hnd₁).append_right _)).trans ?_
        rw [List.append_assoc]
        exact List.perm_middle.symm
      · rw [treeAt_beside hroot hb, prune_of_notMem hb, toList_tree, toList_tree]
        refine (List.Perm.cons root ((ihBeside hnd₂).append_left _)).trans ?_
        refine List.Perm.trans ?_ List.perm_middle.symm
        refine List.Perm.cons root ?_
        rw [← List.append_assoc, ← List.append_assoc]
        exact List.perm_append_comm.append_right _

/-- The names of a tree that is taken out are gone, and all others are left. -/
theorem mem_prune_iff {f : Forest α} (hnd : f.toList.Nodup) {a b : α} :
    b ∈ (f.prune a).toList ↔ b ∈ f.toList ∧ b ∉ (f.treeAt a).toList := by
  have hperm := toList_prune_perm hnd a
  have hdisj := (List.nodup_append'.mp (hperm.nodup_iff.mp hnd)).2.2
  rw [hperm.mem_iff, List.mem_append]
  constructor
  · exact fun h => ⟨.inr h, fun ht => hdisj ht h⟩
  · exact fun ⟨h, hn⟩ => h.resolve_left hn

/-- No name is doubled when a tree is taken out. -/
theorem nodup_prune {f : Forest α} (hnd : f.toList.Nodup) (a : α) :
    (f.prune a).toList.Nodup :=
  (List.nodup_append'.mp ((toList_prune_perm hnd a).nodup_iff.mp hnd)).2.1

/-- No name is in a tree twice. -/
theorem nodup_treeAt {f : Forest α} (hnd : f.toList.Nodup) (a : α) :
    (f.treeAt a).toList.Nodup :=
  (List.nodup_append'.mp ((toList_prune_perm hnd a).nodup_iff.mp hnd)).1

/-- The tree of a name is a part of the forest. -/
theorem mem_of_mem_treeAt {f : Forest α} (hnd : f.toList.Nodup) {a b : α}
    (h : b ∈ (f.treeAt a).toList) : b ∈ f.toList :=
  (toList_prune_perm hnd a).mem_iff.mpr (List.mem_append_left _ h)

/-- Grafting adds the names of the row. -/
theorem toList_graft_perm {f row : Forest α} (hnd : f.toList.Nodup) {a : α}
    (h : a ∈ f.toList) : (f.graft a row).toList.Perm (f.toList ++ row.toList) := by
  induction f with
  | nil => cases h
  | tree root beneath beside ihBeneath ihBeside =>
    obtain ⟨⟨hr₁, hr₂⟩, hnd₁, hnd₂, hdisj⟩ := nodup_tree_iff.mp hnd
    by_cases hroot : root = a
    · rw [graft, if_pos hroot]
      simp only [toList_tree, toList_append, List.cons_append, List.append_assoc]
      exact List.Perm.cons root (List.perm_append_comm.append_left _)
    · rw [graft, if_neg hroot]
      by_cases hb : a ∈ beneath.toList
      · rw [graft_of_notMem (hdisj a hb), toList_tree, toList_tree, List.cons_append]
        refine List.Perm.cons root (((ihBeneath hnd₁ hb).append_right _).trans ?_)
        rw [List.append_assoc, List.append_assoc]
        exact List.perm_append_comm.append_left _
      · have hs : a ∈ beside.toList := by
          rcases List.mem_cons.mp h with h | h
          · exact absurd h.symm hroot
          · exact (List.mem_append.mp h).resolve_left hb
        rw [graft_of_notMem hb, toList_tree, toList_tree, List.cons_append, List.append_assoc]
        exact List.Perm.cons root ((ihBeside hnd₂ hs).append_left _)

/-! ## Paths -/

theorem path?_root {a : α} (beneath beside : Forest α) :
    (tree a beneath beside).path? a = some [a] := by
  rw [path?, if_pos rfl]

theorem path?_beneath {root a : α} {beneath beside : Forest α}
    (hroot : root ≠ a) (h : a ∈ beneath.toList) :
    (tree root beneath beside).path? a = (beneath.path? a).map (· ++ [root]) := by
  rw [path?, if_neg hroot]
  cases hp : beneath.path? a with
  | some inner => rfl
  | none => exact absurd h (path?_eq_none_iff.mp hp)

theorem path?_beside {root a : α} {beneath beside : Forest α}
    (hroot : root ≠ a) (h : a ∉ beneath.toList) :
    (tree root beneath beside).path? a = beside.path? a := by
  rw [path?, if_neg hroot, path?_eq_none_iff.mpr h]

/-- A path starts at its name. -/
theorem path?_eq_cons {f : Forest α} {a : α} {path : List α} (h : f.path? a = some path) :
    ∃ above, path = a :: above := by
  induction f generalizing path with
  | nil => cases h
  | tree root beneath beside ihBeneath ihBeside =>
    rw [path?] at h
    split at h
    case isTrue hroot => exact ⟨[], by rw [← Option.some.inj h, hroot]⟩
    case isFalse hroot =>
      cases hb : beneath.path? a with
      | some inner =>
        obtain ⟨above, rfl⟩ := ihBeneath hb
        rw [hb] at h
        exact ⟨above ++ [root], (Option.some.inj h).symm⟩
      | none =>
        rw [hb] at h
        exact ihBeside h

/-- The path of a name starts with the name. -/
theorem exists_path? {f : Forest α} {a : α} (h : a ∈ f.toList) :
    ∃ above, f.path? a = some (a :: above) := by
  obtain ⟨path, hpath⟩ := Option.isSome_iff_exists.mp (path?_isSome_iff.mpr h)
  obtain ⟨above, rfl⟩ := path?_eq_cons hpath
  exact ⟨above, hpath⟩

/-- What is above a name is in the forest. -/
theorem mem_of_mem_path? {f : Forest α} {a b : α} {path : List α}
    (h : f.path? a = some path) (hb : b ∈ path) : b ∈ f.toList := by
  induction f generalizing path with
  | nil => cases h
  | tree root beneath beside ihBeneath ihBeside =>
    rw [path?] at h
    split at h
    case isTrue hroot =>
      cases h
      rw [List.mem_singleton.mp hb]
      exact List.mem_cons_self
    case isFalse hroot =>
      cases hp : beneath.path? a with
      | some inner =>
        rw [hp] at h
        cases h
        rcases List.mem_append.mp hb with hb | hb
        · exact List.mem_cons_of_mem _ (List.mem_append_left _ (ihBeneath hp hb))
        · rw [List.mem_singleton.mp hb]
          exact List.mem_cons_self
      | none =>
        rw [hp] at h
        exact List.mem_cons_of_mem _ (List.mem_append_right _ (ihBeside h hb))

theorem mem_of_mem_path {f : Forest α} {a b : α} (h : b ∈ f.path a) : b ∈ f.toList := by
  rw [path] at h
  cases hp : f.path? a with
  | some path =>
    rw [hp] at h
    exact mem_of_mem_path? hp h
  | none =>
    rw [hp] at h
    cases h

/-- A path in two rows is one in the first row, or else one in the second row. -/
theorem path?_append (f g : Forest α) (a : α) :
    (f ++ g).path? a = (f.path? a).or (g.path? a) := by
  induction f with
  | nil => simp [path?]
  | tree root beneath beside _ ih =>
    rw [tree_append, path?, path?]
    split
    · rfl
    · cases beneath.path? a with
      | some inner => rfl
      | none => exact ih

/-- The names that are left when a tree is taken out keep their paths. -/
theorem path?_prune {f : Forest α} (hnd : f.toList.Nodup) {a b : α}
    (h : b ∉ (f.treeAt a).toList) : (f.prune a).path? b = f.path? b := by
  induction f with
  | nil => rfl
  | tree root beneath beside ihBeneath ihBeside =>
    obtain ⟨⟨hr₁, hr₂⟩, hnd₁, hnd₂, hdisj⟩ := nodup_tree_iff.mp hnd
    by_cases hroot : root = a
    · subst hroot
      rw [treeAt_root, toList_tree, List.mem_cons, toList_nil, List.append_nil, not_or] at h
      rw [prune, if_pos rfl, path?, if_neg (Ne.symm h.1), path?_eq_none_iff.mpr h.2]
    · rw [prune, if_neg hroot, path?, path?]
      by_cases hb : a ∈ beneath.toList
      · rw [treeAt_beneath hroot hb] at h
        rw [ihBeneath hnd₁ h, prune_of_notMem (hdisj a hb)]
      · rw [treeAt_beside hroot hb] at h
        rw [ihBeside hnd₂ h, prune_of_notMem hb]

/-- The path of a name in a tree goes on with what is above the tree. -/
theorem path?_treeAt {f : Forest α} (hnd : f.toList.Nodup) {a b : α}
    (h : b ∈ (f.treeAt a).toList) :
    ∃ inner above, (f.treeAt a).path? b = some inner ∧ f.path? a = some (a :: above) ∧
      f.path? b = some (inner ++ above) := by
  induction f with
  | nil => cases h
  | tree root beneath beside ihBeneath ihBeside =>
    obtain ⟨⟨hr₁, hr₂⟩, hnd₁, hnd₂, hdisj⟩ := nodup_tree_iff.mp hnd
    by_cases hroot : root = a
    · subst hroot
      rw [treeAt_root] at h ⊢
      have hmem : b = root ∨ b ∈ beneath.toList := by simpa using h
      by_cases hb : root = b
      · exact ⟨[root], [], by simp [path?, hb], by simp [path?], by simp [path?, hb]⟩
      · obtain ⟨above, habove⟩ := exists_path? (hmem.resolve_left (Ne.symm hb))
        exact ⟨b :: above ++ [root], [], by simp [path?, hb, habove], by simp [path?],
          by simp [path?, hb, habove]⟩
    · -- the tree is found on one side, and the path of the other name is found there, too
      by_cases hb : a ∈ beneath.toList
      · rw [treeAt_beneath hroot hb] at h ⊢
        obtain ⟨inner, above, h₁, h₂, h₃⟩ := ihBeneath hnd₁ h
        have hrb : root ≠ b := fun he => hr₁ (he ▸ mem_of_mem_treeAt hnd₁ h)
        refine ⟨inner, above ++ [root], h₁, ?_, ?_⟩
        · simp [path?, hroot, h₂]
        · simp [path?, hrb, h₃]
      · rw [treeAt_beside hroot hb] at h ⊢
        obtain ⟨inner, above, h₁, h₂, h₃⟩ := ihBeside hnd₂ h
        have hbs : b ∈ beside.toList := mem_of_mem_treeAt hnd₂ h
        have hrb : root ≠ b := fun he => hr₂ (he ▸ hbs)
        have hbb : b ∉ beneath.toList := fun hm => hdisj b hm hbs
        refine ⟨inner, above, h₁, ?_, ?_⟩
        · rw [path?, if_neg hroot, path?_eq_none_iff.mpr hb, h₂]
        · rw [path?, if_neg hrb, path?_eq_none_iff.mpr hbb, h₃]

/-- Grafting adds the names of the row, and no others. -/
theorem mem_of_mem_graft {f row : Forest α} {a b : α} (h : b ∈ (f.graft a row).toList) :
    b ∈ f.toList ∨ b ∈ row.toList := by
  induction f with
  | nil => exact .inl h
  | tree root beneath beside ihBeneath ihBeside =>
    rw [graft] at h
    rw [mem_toList_tree]
    split at h
    case isTrue =>
      rw [mem_toList_tree, toList_append, List.mem_append] at h
      tauto
    case isFalse =>
      rw [mem_toList_tree] at h
      have := @ihBeneath
      have := @ihBeside
      tauto

/-- Names that were there before a graft keep their paths. -/
theorem path?_graft_of_mem {f row : Forest α} {a b : α} (hb : b ∈ f.toList)
    (hrow : b ∉ row.toList) : (f.graft a row).path? b = f.path? b := by
  induction f with
  | nil => cases hb
  | tree root beneath beside ihBeneath ihBeside =>
    by_cases hroot : root = b
    · subst hroot
      rw [graft]
      split <;> rw [path?_root, path?_root]
    · have hb' : b ∈ beneath.toList ∨ b ∈ beside.toList :=
        (mem_toList_tree.mp hb).resolve_left (Ne.symm hroot)
      rw [graft]
      split
      case isTrue =>
        -- the row comes after what has been beneath the root
        by_cases hbb : b ∈ beneath.toList
        · rw [path?_beneath hroot hbb, path?_beneath hroot (by simp [hbb]), path?_append,
            Option.or_of_isSome (path?_isSome_iff.mpr hbb)]
        · rw [path?_beside hroot hbb, path?_beside hroot (by simp [hbb, hrow])]
      case isFalse =>
        by_cases hbb : b ∈ beneath.toList
        · have hpath := ihBeneath hbb
          have hmem : b ∈ (beneath.graft a row).toList := by
            rw [← path?_isSome_iff, hpath]
            exact path?_isSome_iff.mpr hbb
          rw [path?_beneath hroot hbb, path?_beneath hroot hmem, hpath]
        · have hn : b ∉ (beneath.graft a row).toList := fun h =>
            (mem_of_mem_graft h).elim hbb hrow
          rw [path?_beside hroot hbb, path?_beside hroot hn, ihBeside (hb'.resolve_left hbb)]

/-- The paths of a row that is grafted go on with the path of the name above. -/
theorem path?_graft_of_notMem {f row : Forest α} (hnd : f.toList.Nodup) {a b : α}
    (ha : a ∈ f.toList) (hb : b ∉ f.toList) :
    (f.graft a row).path? b = (row.path? b).map (· ++ f.path a) := by
  induction f with
  | nil => cases ha
  | tree root beneath beside ihBeneath ihBeside =>
    obtain ⟨⟨hr₁, hr₂⟩, hnd₁, hnd₂, hdisj⟩ := nodup_tree_iff.mp hnd
    rw [mem_toList_tree, not_or, not_or] at hb
    obtain ⟨hroot, hbb, hbs⟩ := hb
    have hroot : root ≠ b := Ne.symm hroot
    by_cases hra : root = a
    · subst hra
      rw [graft, if_pos rfl, path, path?_root, Option.getD_some]
      by_cases hbr : b ∈ row.toList
      · rw [path?_beneath hroot (by simp [hbr]), path?_append, path?_eq_none_iff.mpr hbb,
          Option.none_or]
      · rw [path?_beside hroot (by simp [hbb, hbr]), path?_eq_none_iff.mpr hbs,
          path?_eq_none_iff.mpr hbr]
        rfl
    · rw [graft, if_neg hra]
      by_cases hab : a ∈ beneath.toList
      · have hpath : (tree root beneath beside).path a = beneath.path a ++ [root] := by
          obtain ⟨above, habove⟩ := exists_path? hab
          rw [path, path?_beneath hra hab, path, habove]
          rfl
        rw [graft_of_notMem (hdisj a hab), hpath]
        by_cases hbr : b ∈ (beneath.graft a row).toList
        · rw [path?_beneath hroot hbr, ihBeneath hnd₁ hab hbb, Option.map_map]
          simp [Function.comp_def]
        · have hn := ihBeneath hnd₁ hab hbb
          rw [path?_eq_none_iff.mpr hbr, eq_comm, Option.map_eq_none_iff] at hn
          rw [path?_beside hroot hbr, path?_eq_none_iff.mpr hbs, hn]
          rfl
      · have has : a ∈ beside.toList :=
          ((mem_toList_tree.mp ha).resolve_left (Ne.symm hra)).resolve_left hab
        have hpath : (tree root beneath beside).path a = beside.path a := by
          rw [path, path?_beside hra hab, path]
        rw [graft_of_notMem hab, hpath, path?_beside hroot hbb, ihBeside hnd₂ has hbs]

theorem path_append_of_mem {f : Forest α} (g : Forest α) {a : α} (h : a ∈ f.toList) :
    (f ++ g).path a = f.path a := by
  rw [path, path?_append, Option.or_of_isSome (path?_isSome_iff.mpr h), path]

/-! ## Above and beneath -/

/-- Every path within the tree of a name ends with that name. -/
theorem root_mem_path?_treeAt {f : Forest α} {a b : α} {inner : List α}
    (h : (f.treeAt a).path? b = some inner) : a ∈ inner := by
  rw [treeAt] at h
  cases hb : f.beneath? a with
  | none =>
    rw [hb] at h
    cases h
  | some beneath =>
    rw [hb] at h
    by_cases hab : a = b
    · subst hab
      rw [path?_root] at h
      cases h
      exact List.mem_singleton_self a
    · have hm : b ∈ (tree a beneath nil).toList :=
        path?_isSome_iff.mp (Option.isSome_of_mem h)
      have hm : b ∈ beneath.toList := by
        simpa [Ne.symm hab] using hm
      rw [path?_beneath hab hm] at h
      obtain ⟨path, -, rfl⟩ := Option.map_eq_some_iff.mp h
      exact List.mem_append_right _ (List.mem_singleton_self a)

/-- What is above a name, itself included, are the names in whose trees it is. -/
theorem mem_path_iff {f : Forest α} (hnd : f.toList.Nodup) {a b : α} :
    a ∈ f.path b ↔ b ∈ (f.treeAt a).toList := by
  constructor
  · intro h
    by_contra hn
    -- a name outside of the tree would keep its path when the tree is taken out
    have hpath : (f.prune a).path b = f.path b := by rw [path, path?_prune hnd hn, path]
    rw [← hpath] at h
    have ha := (mem_prune_iff hnd).mp (mem_of_mem_path h)
    exact ha.2 (mem_treeAt_self ha.1)
  · intro h
    obtain ⟨inner, above, h₁, -, h₃⟩ := path?_treeAt hnd h
    rw [path, h₃]
    exact List.mem_append_left _ (root_mem_path?_treeAt h₁)

/-- A parent is in the forest. -/
theorem mem_of_parent? {f : Forest α} {a p : α} (h : f.parent? a = some p) : p ∈ f.toList :=
  mem_of_mem_path (List.mem_of_getElem? h)

/-- A name that does not occur has no parent. -/
theorem parent?_eq_none {f : Forest α} {a : α} (h : a ∉ f.toList) : f.parent? a = none := by
  rw [parent?, path, path?_eq_none_iff.mpr h]
  rfl

/-- In the tree of another name, a name has its parent. -/
theorem parent?_treeAt {f : Forest α} (hnd : f.toList.Nodup) {a b : α}
    (h : b ∈ (f.treeAt a).toList) (hne : b ≠ a) :
    ∃ p rest, (f.treeAt a).path? b = some (b :: p :: rest) ∧ f.parent? b = some p := by
  obtain ⟨inner, above, h₁, h₂, h₃⟩ := path?_treeAt hnd h
  obtain ⟨rest, rfl⟩ := path?_eq_cons h₁
  cases rest with
  | nil =>
    -- a path within the tree ends with its root
    have := root_mem_path?_treeAt h₁
    rw [List.mem_singleton] at this
    exact absurd this.symm hne
  | cons p rest => exact ⟨p, rest, h₁, by rw [parent?, path, h₃]; rfl⟩

/-- The names that are left when a tree is taken out keep their parents. -/
theorem parent?_prune {f : Forest α} (hnd : f.toList.Nodup) {a b : α}
    (h : b ∉ (f.treeAt a).toList) : (f.prune a).parent? b = f.parent? b := by
  rw [parent?, path, path?_prune hnd h, parent?, path]

section Moved

variable {f : Forest α} {parent child : α}

theorem notMem_treeAt_of_prune (hnd : f.toList.Nodup) {a : α} (h : a ∈ (f.prune child).toList) :
    a ∉ (f.treeAt child).toList := ((mem_prune_iff hnd).mp h).2

/-- Moving a tree leaves all other parents as they were. -/
theorem parent?_graft_of_ne (hnd : f.toList.Nodup) (hparent : parent ∈ (f.prune child).toList)
    {a : α} (hne : a ≠ child) :
    ((f.prune child).graft parent (f.treeAt child)).parent? a = f.parent? a := by
  by_cases hmem : a ∈ (f.treeAt child).toList
  · -- the parent moves, too
    have hn : a ∉ (f.prune child).toList := fun h => notMem_treeAt_of_prune hnd h hmem
    obtain ⟨p, rest, hpath, hp⟩ := parent?_treeAt hnd hmem hne
    rw [hp, parent?, path, path?_graft_of_notMem (nodup_prune hnd _) hparent hn, hpath]
    rfl
  · rw [← parent?_prune hnd hmem]
    by_cases hprune : a ∈ (f.prune child).toList
    · rw [parent?, path, path?_graft_of_mem hprune hmem, parent?, path]
    · rw [parent?_eq_none hprune, parent?_eq_none]
      exact fun h => (mem_of_mem_graft h).elim hprune hmem

/-- The root of a tree that was moved is beneath its new parent. -/
theorem parent?_graft_self (hnd : f.toList.Nodup) (hparent : parent ∈ (f.prune child).toList)
    (hchild : child ∈ f.toList) :
    ((f.prune child).graft parent (f.treeAt child)).parent? child = some parent := by
  have hmem := mem_treeAt_self hchild
  have hn : child ∉ (f.prune child).toList := fun h => notMem_treeAt_of_prune hnd h hmem
  obtain ⟨above, habove⟩ := exists_path? hparent
  obtain ⟨beneath, -, htree⟩ := exists_treeAt_eq hchild
  rw [parent?, path, path?_graft_of_notMem (nodup_prune hnd _) hparent hn, htree, path?_root, path,
    habove]
  rfl

/-- Taking a tree away leaves all other parents as they were. -/
theorem parent?_detached_of_ne (hnd : f.toList.Nodup) {a : α} (hne : a ≠ child) :
    (f.prune child ++ f.treeAt child).parent? a = f.parent? a := by
  by_cases hmem : a ∈ (f.treeAt child).toList
  · have hn : a ∉ (f.prune child).toList := fun h => notMem_treeAt_of_prune hnd h hmem
    obtain ⟨p, rest, hpath, hp⟩ := parent?_treeAt hnd hmem hne
    rw [hp, parent?, path, path?_append, path?_eq_none_iff.mpr hn, hpath]
    rfl
  · rw [← parent?_prune hnd hmem]
    by_cases hprune : a ∈ (f.prune child).toList
    · rw [parent?, path_append_of_mem _ hprune, parent?]
    · rw [parent?_eq_none hprune, parent?_eq_none (by simp [hprune, hmem])]

end Moved

/-! ## Walks down a forest -/

/-- Whether the trees of a row, and all that are beneath them, are the trees of their roots in a
forest. -/
def Within (f : Forest α) : Forest α → Prop
  | nil => True
  | tree root beneath beside =>
    f.beneath? root = some beneath ∧ f.Within beneath ∧ f.Within beside

theorem Within.tree_beneath {root : α} {beneath beside row : Forest α}
    (hnd : (tree root beneath beside).toList.Nodup) (h : beneath.Within row) :
    (tree root beneath beside).Within row := by
  induction row with
  | nil => trivial
  | tree a s t ihs iht =>
    obtain ⟨hb, hs, ht⟩ := h
    have ha : a ∈ beneath.toList := mem_of_beneath? hb
    have hne : root ≠ a := fun he => (nodup_tree_iff.mp hnd).1.1 (he ▸ ha)
    exact ⟨by rw [beneath?_beneath hne ha, hb], ihs hs, iht ht⟩

theorem Within.tree_beside {root : α} {beneath beside row : Forest α}
    (hnd : (tree root beneath beside).toList.Nodup) (h : beside.Within row) :
    (tree root beneath beside).Within row := by
  induction row with
  | nil => trivial
  | tree a s t ihs iht =>
    obtain ⟨hb, hs, ht⟩ := h
    have ha : a ∈ beside.toList := mem_of_beneath? hb
    obtain ⟨⟨-, hr⟩, -, -, hdisj⟩ := nodup_tree_iff.mp hnd
    have hne : root ≠ a := fun he => hr (he ▸ ha)
    exact ⟨by rw [beneath?_beside hne (fun hm => hdisj a hm ha), hb], ihs hs, iht ht⟩

/-- A forest is a part of itself. -/
theorem within_self {f : Forest α} (hnd : f.toList.Nodup) : f.Within f := by
  induction f with
  | nil => trivial
  | tree root beneath beside ihBeneath ihBeside =>
    obtain ⟨-, hnd₁, hnd₂, -⟩ := nodup_tree_iff.mp hnd
    exact ⟨beneath?_root _ _, .tree_beneath hnd (ihBeneath hnd₁), .tree_beside hnd (ihBeside hnd₂)⟩

/-- What is beneath a name is a part of the forest. -/
theorem within_of_beneath? {f beneath : Forest α} (hnd : f.toList.Nodup) {a : α}
    (h : f.beneath? a = some beneath) : f.Within beneath := by
  -- whatever is found in a row within the forest has been found in the forest
  suffices ∀ row : Forest α, f.Within row → row.beneath? a = some beneath → f.Within beneath from
    this f (within_self hnd) h
  intro row hrow hb
  induction row with
  | nil => cases hb
  | tree root s t ihs iht =>
    rw [beneath?] at hb
    split at hb
    case isTrue =>
      cases hb
      exact hrow.2.1
    case isFalse =>
      cases hs : s.beneath? a with
      | some found =>
        rw [hs] at hb
        exact ihs hrow.2.1 (hs.trans hb)
      | none =>
        rw [hs] at hb
        exact iht hrow.2.2 hb

/-- The tree of a name is a part of the forest. -/
theorem within_treeAt {f : Forest α} (hnd : f.toList.Nodup) (a : α) : f.Within (f.treeAt a) := by
  rw [treeAt]
  cases hb : f.beneath? a with
  | some beneath => exact ⟨hb, within_of_beneath? hnd hb, trivial⟩
  | none => trivial

/-- A name without anything above it is a root. -/
theorem mem_roots_of_path? {f : Forest α} {a : α} (h : f.path? a = some [a]) : a ∈ f.roots := by
  induction f with
  | nil => cases h
  | tree root beneath beside _ ih =>
    by_cases hroot : root = a
    · exact hroot ▸ List.mem_cons_self
    · by_cases hb : a ∈ beneath.toList
      · rw [path?_beneath hroot hb] at h
        obtain ⟨path, hp, hpath⟩ := Option.map_eq_some_iff.mp h
        obtain ⟨above, rfl⟩ := path?_eq_cons hp
        simp at hpath
      · rw [path?_beside hroot hb] at h
        exact List.mem_cons_of_mem _ (ih h)

/-- The children of a name are the roots of the row beneath it. -/
theorem mem_roots_of_parent? {f beneath : Forest α} (hnd : f.toList.Nodup) {a p : α}
    (hp : f.parent? a = some p) (hb : f.beneath? p = some beneath) : a ∈ beneath.roots := by
  induction f with
  | nil => cases hb
  | tree root s t ihs iht =>
    obtain ⟨⟨hr₁, hr₂⟩, hnd₁, hnd₂, hdisj⟩ := nodup_tree_iff.mp hnd
    have ha : a ∈ (tree root s t).toList := by
      by_contra hn
      rw [parent?_eq_none hn] at hp
      cases hp
    have hroot : root ≠ a := by
      rintro rfl
      rw [parent?, path, path?_root] at hp
      cases hp
    by_cases has : a ∈ s.toList
    · obtain ⟨above, hin⟩ := exists_path? has
      rw [parent?, path, path?_beneath hroot has, hin] at hp
      cases above with
      | nil =>
        -- the name is right beneath the root
        cases hp
        rw [beneath?_root] at hb
        cases hb
        exact mem_roots_of_path? hin
      | cons q above =>
        cases hp
        have hps : p ∈ s.toList := mem_of_mem_path? hin (by simp)
        have hne : root ≠ p := fun he => hr₁ (he ▸ hps)
        rw [beneath?_beneath hne hps] at hb
        exact ihs hnd₁ (by rw [parent?, path, hin]; rfl) hb
    · rw [parent?, path, path?_beside hroot has, ← path, ← parent?] at hp
      have hpt : p ∈ t.toList := mem_of_parent? hp
      have hne : root ≠ p := fun he => hr₂ (he ▸ hpt)
      rw [beneath?_beside hne (fun hm => hdisj p hm hpt)] at hb
      exact iht hnd₂ hp hb

end FlexStyle.Forest
