import FlexStyle.Proofs.Forest.Lineage
import Mathlib.Logic.Relation

/-!
# Children in forests

The names directly beneath a name, in order. Taking a tree out of a forest takes its root from the
children of one name and leaves all others as they were; putting it beneath a name adds the root at
the end of the children of that name.

- `Forest.children`, `Forest.mem_children_iff`: the children of a name, which are the names that
  have it as their parent.
- `Forest.Under`: one step from a name to its parent; `Forest.mem_path_iff_under` and
  `Forest.not_transGen_under`: where such steps lead, and that they do not lead back.
- `Forest.children_prune`, `Forest.children_graft_self`, `Forest.children_graft_of_ne`: the children
  after a tree was taken out or put in.
- `Forest.children_moved_self`, `Forest.children_moved_of_ne`, `Forest.treeAt_moved`: the children
  and the trees after a tree was moved.
-/

namespace FlexStyle.Forest

variable {α : Type}

@[simp] theorem roots_append (f g : Forest α) : (f ++ g).roots = f.roots ++ g.roots := by
  induction f with
  | nil => rfl
  | tree root beneath beside _ ih => simp [roots, ih]

variable [DecidableEq α]

/-- The names directly beneath a name, in order. -/
def children (f : Forest α) (a : α) : List α := ((f.beneath? a).map roots).getD []

/-- The children of a name are the roots of what is beneath it. -/
theorem children_of_beneath? {f beneath : Forest α} {a : α} (h : f.beneath? a = some beneath) :
    f.children a = beneath.roots := by
  rw [children, h]
  rfl

theorem children_of_notMem {f : Forest α} {a : α} (h : a ∉ f.toList) : f.children a = [] := by
  rw [children, beneath?_eq_none_iff.mpr h]
  rfl

/-- The children of a name are the names that it is the parent of. -/
theorem mem_children_iff {f : Forest α} (hnd : f.toList.Nodup) {a b : α} :
    b ∈ f.children a ↔ f.parent? b = some a := by
  constructor
  · intro hb
    cases hbeneath : f.beneath? a with
    | none =>
      rw [children, hbeneath] at hb
      cases hb
    | some beneath =>
      rw [children_of_beneath? hbeneath] at hb
      exact parent?_of_mem_roots hnd hbeneath hb
  · intro hp
    obtain ⟨beneath, hbeneath, -⟩ := exists_treeAt_eq (mem_of_parent? hp)
    rw [children_of_beneath? hbeneath]
    exact mem_roots_of_parent? hnd hp hbeneath

/-! ## Steps up -/

/-- Whether a name is directly under another one. -/
def Under (f : Forest α) (a b : α) : Prop := f.parent? a = some b

/-- Steps up make a name less deep, so that they never lead back to it. -/
theorem not_transGen_under {f : Forest α} (hnd : f.toList.Nodup) (a : α) :
    ¬ Relation.TransGen f.Under a a := by
  have hdepth : ∀ {a b}, Relation.TransGen f.Under a b → f.depth b < f.depth a := by
    intro a b h
    induction h with
    | single hab => have := depth_of_parent? hnd hab; omega
    | tail _ hbc ih => have := depth_of_parent? hnd hbc; omega
  exact fun h => Nat.lt_irrefl _ (hdepth h)

/-- The path of a name holds what steps up from it lead to. -/
theorem mem_path_iff_under {f : Forest α} (hnd : f.toList.Nodup) {a b : α} (ha : a ∈ f.toList) :
    b ∈ f.path a ↔ Relation.ReflTransGen f.Under a b := by
  -- on the depth of the name: its path goes on with the path of its parent
  induction hd : f.depth a generalizing a with
  | zero =>
    obtain ⟨above, hpath⟩ := exists_path? ha
    rw [depth, path, hpath] at hd
    cases hd
  | succ depth ih =>
    rw [Relation.ReflTransGen.cases_head_iff]
    cases hp : f.parent? a with
    | none =>
      have hpath : f.path a = [a] := by
        obtain ⟨above, hpath⟩ := exists_path? ha
        rw [parent?, path, hpath] at hp
        rw [path, hpath]
        cases above with
        | nil => rfl
        | cons q rest => cases hp
      simp [hpath, Under, hp, eq_comm]
    | some p =>
      have hup := ih (mem_of_parent? hp) (by have := depth_of_parent? hnd hp; omega)
      rw [path_of_parent? hnd hp, List.mem_cons, hup]
      simp [Under, hp, eq_comm]

/-! ## Taking a tree out -/

theorem roots_prune {f : Forest α} (hnd : f.toList.Nodup) (a : α) :
    (f.prune a).roots = f.roots.filter (· ≠ a) := by
  induction f with
  | nil => rfl
  | tree root beneath beside _ ih =>
    obtain ⟨⟨-, hr⟩, -, hnd₂, -⟩ := nodup_tree_iff.mp hnd
    rw [prune]
    split
    case isTrue hroot =>
      subst hroot
      have hall : beside.roots.filter (· ≠ root) = beside.roots := by
        rw [List.filter_eq_self]
        intro b hb
        have hne : b ≠ root := fun he => hr (he ▸ mem_toList_of_mem_roots hb)
        simpa using hne
      rw [roots, List.filter_cons_of_neg (by simp), hall]
    case isFalse hroot =>
      rw [roots, roots, List.filter_cons_of_pos (by simpa using hroot), ih hnd₂]

theorem mem_of_mem_beneath? {f beneath : Forest α} (hnd : f.toList.Nodup) {a b : α}
    (h : f.beneath? a = some beneath) (hb : b ∈ beneath.toList) : b ∈ f.toList := by
  refine mem_of_mem_treeAt (a := a) hnd ?_
  rw [treeAt, h]
  exact List.mem_cons_of_mem a (List.mem_append_left _ hb)

/-- What is beneath a name outside the tree loses the tree, if it held it. -/
theorem beneath?_prune {f : Forest α} (hnd : f.toList.Nodup) {a b : α}
    (h : b ∉ (f.treeAt a).toList) :
    (f.prune a).beneath? b = (f.beneath? b).map (prune a) := by
  -- what does not hold the root of the tree stays as it is
  have hsame : ∀ {g : Forest α}, g.toList.Nodup → a ∉ g.toList →
      (g.beneath? b).map (prune a) = g.beneath? b := by
    intro g hg ha
    cases hb : g.beneath? b with
    | none => rfl
    | some beneath =>
      rw [Option.map_some, prune_of_notMem fun hm => ha (mem_of_mem_beneath? hg hb hm)]
  induction f with
  | nil => rfl
  | tree root s t ihs iht =>
    obtain ⟨⟨hr₁, hr₂⟩, hnd₁, hnd₂, hdisj⟩ := nodup_tree_iff.mp hnd
    by_cases hroot : root = a
    · subst hroot
      rw [treeAt_root, toList_tree, List.mem_cons, toList_nil, List.append_nil, not_or] at h
      rw [prune, if_pos rfl, beneath?_beside (Ne.symm h.1) h.2, hsame hnd₂ hr₂]
    · rw [prune, if_neg hroot]
      by_cases hrb : root = b
      · subst hrb
        rw [beneath?_root, beneath?_root]
        rfl
      · rw [beneath?, if_neg hrb, beneath?, if_neg hrb]
        by_cases has : a ∈ s.toList
        · rw [treeAt_beneath hroot has] at h
          rw [ihs hnd₁ h, prune_of_notMem (hdisj a has)]
          cases hb : s.beneath? b with
          | some found => rfl
          | none => exact (hsame hnd₂ (hdisj a has)).symm
        · rw [treeAt_beside hroot has] at h
          rw [iht hnd₂ h, prune_of_notMem has]
          cases hb : s.beneath? b with
          | some found => exact (hb ▸ hsame hnd₁ has).symm
          | none => rfl

/-- Where a tree is taken out, its root is missing among the children. -/
theorem children_prune {f : Forest α} (hnd : f.toList.Nodup) {a b : α}
    (h : b ∉ (f.treeAt a).toList) :
    (f.prune a).children b = (f.children b).filter (· ≠ a) := by
  rw [children, beneath?_prune hnd h, children]
  cases hb : f.beneath? b with
  | none => rfl
  | some beneath =>
    have hbeneath : beneath.toList.Nodup := by
      have htree := nodup_treeAt hnd b
      rw [treeAt, hb] at htree
      exact (nodup_tree_iff.mp htree).2.1
    exact roots_prune hbeneath a

/-! ## Putting a tree in -/

theorem beneath?_isSome_iff {f : Forest α} {a : α} : (f.beneath? a).isSome ↔ a ∈ f.toList := by
  rw [← Option.ne_none_iff_isSome, ne_eq, beneath?_eq_none_iff, not_not]

theorem beneath?_append (f g : Forest α) (a : α) :
    (f ++ g).beneath? a = (f.beneath? a).or (g.beneath? a) := by
  induction f with
  | nil => rfl
  | tree root s t _ ih =>
    rw [tree_append, beneath?, beneath?]
    split
    · rfl
    · cases s.beneath? a with
      | some found => rfl
      | none => exact ih

theorem roots_graft (f row : Forest α) (a : α) : (f.graft a row).roots = f.roots := by
  induction f with
  | nil => rfl
  | tree root beneath beside _ ih =>
    rw [graft]
    split
    · rfl
    · rw [roots, roots, ih]

theorem toList_subset_graft {f row : Forest α} {a b : α} (h : b ∈ f.toList) :
    b ∈ (f.graft a row).toList := by
  induction f with
  | nil => cases h
  | tree root s t ihs iht =>
    rw [mem_toList_tree] at h
    rw [graft]
    split
    · rw [mem_toList_tree, toList_append, List.mem_append]
      tauto
    · rw [mem_toList_tree]
      exact h.imp_right (Or.imp ihs iht)

/-- What is beneath a name that was there before gains the row, if it is beneath the name to which
the row is added. -/
theorem beneath?_graft_of_mem {f row : Forest α} (hnd : f.toList.Nodup) {a b : α}
    (hb : b ∈ f.toList) (hrow : b ∉ row.toList) :
    (f.graft a row).beneath? b =
      (f.beneath? b).map fun beneath => if b = a then beneath ++ row else beneath.graft a row := by
  -- without the name there is nothing to add
  have hsame : ∀ {g : Forest α}, g.toList.Nodup → a ∉ g.toList → b ∈ g.toList →
      g.beneath? b = (g.beneath? b).map fun beneath =>
        if b = a then beneath ++ row else beneath.graft a row := by
    intro g hg ha hmem
    have hne : b ≠ a := fun he => ha (he ▸ hmem)
    obtain ⟨beneath, hbeneath, -⟩ := exists_treeAt_eq hmem
    rw [hbeneath, Option.map_some, if_neg hne,
      graft_of_notMem fun hm => ha (mem_of_mem_beneath? hg hbeneath hm)]
  induction f with
  | nil => cases hb
  | tree root s t ihs iht =>
    obtain ⟨⟨hr₁, hr₂⟩, hnd₁, hnd₂, hdisj⟩ := nodup_tree_iff.mp hnd
    by_cases hrb : root = b
    · subst hrb
      rw [graft, beneath?_root, Option.map_some]
      split <;> rw [beneath?_root]
    · have hst : b ∈ s.toList ∨ b ∈ t.toList := (mem_toList_tree.mp hb).resolve_left (Ne.symm hrb)
      rw [graft]
      by_cases hbs : b ∈ s.toList
      · split
        case isTrue hroot =>
          subst hroot
          have hsr : b ∈ (s ++ row).toList := by simp [hbs]
          rw [beneath?_beneath hrb hsr, beneath?_beneath hrb hbs, beneath?_append,
            Option.or_of_isSome (beneath?_isSome_iff.mpr hbs)]
          exact hsame hnd₁ hr₁ hbs
        case isFalse =>
          rw [beneath?_beneath hrb (toList_subset_graft hbs), beneath?_beneath hrb hbs,
            ihs hnd₁ hbs]
      · have hbt := hst.resolve_left hbs
        split
        case isTrue hroot =>
          subst hroot
          rw [beneath?_beside hrb (by simp [hbs, hrow]), beneath?_beside hrb hbs]
          exact hsame hnd₂ hr₂ hbt
        case isFalse =>
          rw [beneath?_beside hrb fun h => (mem_of_mem_graft h).elim hbs hrow,
            beneath?_beside hrb hbs, iht hnd₂ hbt]

/-- Beneath a name of the row, nothing changes. -/
theorem beneath?_graft_of_notMem {f row : Forest α} (hnd : f.toList.Nodup) {a b : α}
    (ha : a ∈ f.toList) (hb : b ∉ f.toList) :
    (f.graft a row).beneath? b = row.beneath? b := by
  induction f with
  | nil => cases ha
  | tree root s t ihs iht =>
    obtain ⟨⟨hr₁, hr₂⟩, hnd₁, hnd₂, hdisj⟩ := nodup_tree_iff.mp hnd
    rw [mem_toList_tree, not_or, not_or] at hb
    obtain ⟨hrb, hbs, hbt⟩ := hb
    rw [graft]
    split
    case isTrue hroot =>
      subst hroot
      rw [beneath?, if_neg (Ne.symm hrb), beneath?_append, beneath?_eq_none_iff.mpr hbs,
        beneath?_eq_none_iff.mpr hbt, Option.none_or]
      cases row.beneath? b <;> rfl
    case isFalse hroot =>
      rw [beneath?, if_neg (Ne.symm hrb)]
      rcases (mem_toList_tree.mp ha).resolve_left (Ne.symm hroot) with has | hat
      · rw [ihs hnd₁ has hbs, graft_of_notMem (hdisj a has), beneath?_eq_none_iff.mpr hbt]
        cases row.beneath? b <;> rfl
      · rw [iht hnd₂ hat hbt, graft_of_notMem fun has => hdisj a has hat,
          beneath?_eq_none_iff.mpr hbs]

/-- A row that is added beneath a name comes after the children that are there. -/
theorem children_graft_self {f row : Forest α} (hnd : f.toList.Nodup) {a : α} (ha : a ∈ f.toList)
    (hrow : a ∉ row.toList) : (f.graft a row).children a = f.children a ++ row.roots := by
  obtain ⟨beneath, hbeneath, -⟩ := exists_treeAt_eq ha
  have hafter : (f.graft a row).beneath? a = some (beneath ++ row) := by
    rw [beneath?_graft_of_mem hnd ha hrow, hbeneath, Option.map_some, if_pos rfl]
  rw [children_of_beneath? hafter, children_of_beneath? hbeneath, roots_append]

/-- Grafting leaves the children of other names alone. -/
theorem children_graft_of_ne {f row : Forest α} (hnd : f.toList.Nodup) {a b : α}
    (hb : b ∈ f.toList) (hrow : b ∉ row.toList) (hne : b ≠ a) :
    (f.graft a row).children b = f.children b := by
  obtain ⟨beneath, hbeneath, -⟩ := exists_treeAt_eq hb
  have hafter : (f.graft a row).beneath? b = some (beneath.graft a row) := by
    rw [beneath?_graft_of_mem hnd hb hrow, hbeneath, Option.map_some, if_neg hne]
  rw [children_of_beneath? hafter, children_of_beneath? hbeneath, roots_graft]

/-! ## Moving a tree -/

/-- Beneath a name of a tree is in the tree what is beneath it in the forest. -/
theorem Within.beneath?_eq {f row beneath : Forest α} (h : f.Within row) {a : α}
    (hb : row.beneath? a = some beneath) : f.beneath? a = some beneath := by
  induction row with
  | nil => cases hb
  | tree root s t ihs iht =>
    obtain ⟨hroot, hs, ht⟩ := h
    by_cases hra : root = a
    · subst hra
      rw [beneath?_root] at hb
      cases hb
      exact hroot
    · by_cases has : a ∈ s.toList
      · rw [beneath?_beneath hra has] at hb
        exact ihs hs hb
      · rw [beneath?_beside hra has] at hb
        exact iht ht hb

theorem beneath?_treeAt {f : Forest α} (hnd : f.toList.Nodup) {a b : α}
    (hb : b ∈ (f.treeAt a).toList) : (f.treeAt a).beneath? b = f.beneath? b := by
  obtain ⟨beneath, hbeneath, -⟩ := exists_treeAt_eq hb
  rw [hbeneath, (within_treeAt hnd a).beneath?_eq hbeneath]

section Moved

variable {f : Forest α} {parent child : α}

/-- A tree that is moved stays as it is. -/
theorem beneath?_moved (hnd : f.toList.Nodup) (hparent : parent ∈ (f.prune child).toList) {a : α}
    (ha : a ∈ (f.treeAt child).toList) :
    ((f.prune child).graft parent (f.treeAt child)).beneath? a = f.beneath? a := by
  have hn : a ∉ (f.prune child).toList := fun h => notMem_treeAt_of_prune hnd h ha
  rw [beneath?_graft_of_notMem (nodup_prune hnd child) hparent hn, beneath?_treeAt hnd ha]

/-- A tree that is moved is the same afterwards. -/
theorem treeAt_moved (hnd : f.toList.Nodup) (hparent : parent ∈ (f.prune child).toList) {a : α}
    (ha : a ∈ (f.treeAt child).toList) :
    ((f.prune child).graft parent (f.treeAt child)).treeAt a = f.treeAt a := by
  rw [treeAt, beneath?_moved hnd hparent ha, treeAt]

/-- The root of a tree that is moved comes after the children that its new parent has. -/
theorem children_moved_self (hnd : f.toList.Nodup) (hparent : parent ∈ (f.prune child).toList)
    (hchild : child ∈ f.toList) :
    ((f.prune child).graft parent (f.treeAt child)).children parent =
      (f.children parent).filter (· ≠ child) ++ [child] := by
  have hout := notMem_treeAt_of_prune hnd hparent
  obtain ⟨beneath, -, htree⟩ := exists_treeAt_eq hchild
  rw [children_graft_self (nodup_prune hnd child) hparent hout, children_prune hnd hout, htree]
  rfl

/-- All other names keep their children in order, apart from the root of the tree. -/
theorem children_moved_of_ne (hnd : f.toList.Nodup) (hparent : parent ∈ (f.prune child).toList)
    {a : α} (hne : a ≠ parent) :
    ((f.prune child).graft parent (f.treeAt child)).children a =
      (f.children a).filter (· ≠ child) := by
  by_cases ha : a ∈ (f.treeAt child).toList
  · -- the root is above the name, and so cannot be beneath it
    have hf : a ∈ f.toList := mem_of_mem_treeAt hnd ha
    have habove : child ∈ f.path a := (mem_path_iff hnd).mpr ha
    have hall : (f.children a).filter (· ≠ child) = f.children a := by
      rw [List.filter_eq_self]
      intro b hb
      have hp := (mem_children_iff hnd).mp hb
      have hne : b ≠ child := by
        rintro rfl
        exact not_transGen_under hnd a (.tail' ((mem_path_iff_under hnd hf).mp habove) hp)
      simpa using hne
    rw [children, beneath?_moved hnd hparent ha, hall, children]
  · by_cases hin : a ∈ (f.prune child).toList
    · rw [children_graft_of_ne (nodup_prune hnd child) hin ha hne, children_prune hnd ha]
    · have hf : a ∉ f.toList := fun h => hin ((mem_prune_iff hnd).mpr ⟨h, ha⟩)
      rw [children_of_notMem hf, children_of_notMem fun h => (mem_of_mem_graft h).elim hin ha]
      rfl

end Moved

end FlexStyle.Forest
