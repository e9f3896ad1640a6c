import FlexStyle.Proofs.Box

/-!
# Assignments that change nothing

Assignments report no change exactly if the record agrees with each of them. It is not enough that
the record comes out as it was: if two of them write data that differ to one field, one of the two
is a change, even if the other one takes it back.

- `Datum.beq_symm`, `Datum.beq_trans`: the comparison of data. Not-a-number differs from itself.
- `Concordant`: assignments no two of which differ.
- `BoxStyle.Holds`: whether a record has what is written last.
- `BoxStyle.assignAll_snd_eq_false_iff`: no change is reported exactly if both hold.
-/

namespace FlexStyle

namespace Binary

variable {f : Format} {x y z : Binary f}

theorem beq_symm (h : (x == y) = true) : (y == x) = true := by
  rw [beq_iff] at h ⊢
  exact ⟨h.2.1, h.1, h.2.2.symm⟩

theorem beq_trans (h₁ : (x == y) = true) (h₂ : (y == z) = true) : (x == z) = true := by
  rw [beq_iff] at h₁ h₂ ⊢
  exact ⟨h₁.1, h₂.2.1, h₁.2.2.trans h₂.2.2⟩

end Binary

namespace Dimension

variable {a b c : Dimension}

/-- Dimensions that compare as equal are the same, or hold numbers that do. -/
theorem beq_cases (h : a.beq b = true) :
    a = b ∨ ∃ x y : Single, (x == y) = true ∧
      ((a = .points x ∧ b = .points y) ∨ (a = .percent x ∧ b = .percent y)) := by
  unfold beq at h
  split at h
  · exact .inr ⟨_, _, h, .inl ⟨rfl, rfl⟩⟩
  · exact .inr ⟨_, _, h, .inr ⟨rfl, rfl⟩⟩
  · exact .inl (of_decide_eq_true h)

theorem beq_symm (h : a.beq b = true) : b.beq a = true := by
  obtain rfl | ⟨x, y, hxy, ⟨rfl, rfl⟩ | ⟨rfl, rfl⟩⟩ := beq_cases h
  · exact h
  · exact Binary.beq_symm hxy
  · exact Binary.beq_symm hxy

theorem beq_trans (h₁ : a.beq b = true) (h₂ : b.beq c = true) : a.beq c = true := by
  obtain rfl | ⟨x, y, hxy, ⟨rfl, rfl⟩ | ⟨rfl, rfl⟩⟩ := beq_cases h₁
  · exact h₂
  · obtain rfl | ⟨y', z, hyz, ⟨hy, rfl⟩ | ⟨hy, rfl⟩⟩ := beq_cases h₂
    · exact hxy
    · cases hy
      exact Binary.beq_trans hxy hyz
    · cases hy
  · obtain rfl | ⟨y', z, hyz, ⟨hy, rfl⟩ | ⟨hy, rfl⟩⟩ := beq_cases h₂
    · exact hxy
    · cases hy
    · cases hy
      exact Binary.beq_trans hxy hyz

end Dimension

namespace Datum

variable {a b c : Datum}

/-- Data that compare as equal are the same, or hold numbers or dimensions that do. -/
theorem beq_cases (h : a.beq b = true) :
    a = b ∨ (∃ x y : Single, (x == y) = true ∧
        ((a = .factor x ∧ b = .factor y) ∨ (a = .ratio (some x) ∧ b = .ratio (some y)))) ∨
      ∃ d e : Dimension, d.beq e = true ∧ a = .dimension d ∧ b = .dimension e := by
  unfold beq at h
  split at h
  · exact .inr (.inl ⟨_, _, h, .inl ⟨rfl, rfl⟩⟩)
  · rename_i x y
    cases x <;> cases y
    · exact .inl rfl
    · cases h
    · cases h
    · exact .inr (.inl ⟨_, _, h, .inr ⟨rfl, rfl⟩⟩)
  · exact .inr (.inr ⟨_, _, h, rfl, rfl⟩)
  · exact .inl (of_decide_eq_true h)

theorem beq_symm (h : a.beq b = true) : b.beq a = true := by
  obtain rfl | ⟨x, y, hxy, ⟨rfl, rfl⟩ | ⟨rfl, rfl⟩⟩ | ⟨d, e, hde, rfl, rfl⟩ := beq_cases h
  · exact h
  · exact Binary.beq_symm hxy
  · exact Binary.beq_symm hxy
  · exact Dimension.beq_symm hde

theorem beq_trans (h₁ : a.beq b = true) (h₂ : b.beq c = true) : a.beq c = true := by
  obtain rfl | ⟨x, y, hxy, ⟨rfl, rfl⟩ | ⟨rfl, rfl⟩⟩ | ⟨d, e, hde, rfl, rfl⟩ := beq_cases h₁
  · exact h₂
  all_goals
    obtain rfl | ⟨y', z, hyz, ⟨hy, rfl⟩ | ⟨hy, rfl⟩⟩ | ⟨e', d', hed, hy, rfl⟩ := beq_cases h₂
    · exact h₁
    all_goals cases hy
  · exact Binary.beq_trans hxy hyz
  · exact Binary.beq_trans hxy hyz
  · exact Dimension.beq_trans hde hed

end Datum

/-- Edges that are equal side by side are equal. -/
theorem Edges.beq_of_get {a b : Edges} (h : ∀ side, (a.get side).beq (b.get side) = true) :
    (a == b) = true := by
  show ((a.get .top).beq (b.get .top) && (a.get .right).beq (b.get .right) &&
    (a.get .bottom).beq (b.get .bottom) && (a.get .left).beq (b.get .left)) = true
  rw [h, h, h, h]
  rfl

/-- Whether no two of some assignments write data to one field that compare as different; none may
write not-a-number, which differs from itself. -/
def Concordant (assignments : List Assignment) : Prop :=
  ∀ a ∈ assignments, ∀ b ∈ assignments, ∀ f d e,
    a.at? f = some d → b.at? f = some e → d.beq e = true

namespace BoxStyle

variable {s : BoxStyle} {assignments : List Assignment}

/-- Whether a record has in every field what the last of some assignments writes there. -/
def Holds (s : BoxStyle) (assignments : List Assignment) : Prop :=
  ∀ f d, lastTo? f assignments = some d → (s.get f).beq d = true

/-- A part agrees with an assignment exactly if all fields of the part do. -/
theorem agrees_iff {a : Assignment} :
    s.agrees a = true ↔ ∀ f d, a.at? f = some d → (s.get f).beq d = true := by
  constructor
  · exact fun h f d hd => beq_of_agrees h hd
  · intro h
    cases a with
    | direction value =>
      have hget : Datum.direction s.direction = .direction value :=
        of_decide_eq_true (h .direction _ rfl)
      simpa [agrees] using hget
    | keyword field value =>
      have hget : Datum.keyword (s.keyword field) = .keyword value :=
        of_decide_eq_true (h (.keyword field) _ (if_pos rfl))
      simpa [agrees] using hget
    | factor field value => exact h (.factor field) _ (if_pos rfl)
    | aspectRatio value => exact h .aspectRatio _ rfl
    | dimension field value => exact h (.dimension field) _ (if_pos rfl)
    | edges box value =>
      exact Edges.beq_of_get fun side => h (.dimension (.edge box side)) _ (if_pos rfl)

/-- An assignment reports no change exactly if the record agrees with it. -/
theorem assign_snd_eq_false_iff {a : Assignment} : (s.assign a).2 = false ↔ s.agrees a = true := by
  unfold assign
  split <;> simp_all

/-- **No change is reported** exactly if no two assignments differ and the record has what is
written last. -/
theorem assignAll_snd_eq_false_iff :
    (s.assignAll assignments).2 = false ↔ Concordant assignments ∧ s.Holds assignments := by
  rw [assignAll, foldChanges_snd_eq_false_iff assign assign_of_false]
  simp only [assign_snd_eq_false_iff, agrees_iff]
  constructor
  · intro h
    refine ⟨fun a ha b hb f d e hd he => ?_, fun f d hd => ?_⟩
    · exact Datum.beq_trans (Datum.beq_symm (h a ha f d hd)) (h b hb f e he)
    · obtain ⟨a, ha, hto⟩ := exists_of_lastTo? hd
      exact h a ha f d hto
  · rintro ⟨hconcordant, hholds⟩ a ha f d hd
    -- the record has what is written last, and that does not differ
    obtain ⟨last, hlast⟩ : ∃ last, lastTo? f assignments = some last := by
      rw [← Option.ne_none_iff_exists', ne_eq, lastTo?_eq_none_iff]
      intro hnone
      rw [hnone a ha] at hd
      cases hd
    obtain ⟨b, hb, hto⟩ := exists_of_lastTo? hlast
    exact Datum.beq_trans (hholds f last hlast) (hconcordant b hb a ha f last d hto hd)

end BoxStyle

end FlexStyle
