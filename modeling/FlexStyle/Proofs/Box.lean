import FlexStyle.Box.Style

/-!
# Box records, field by field

A record is a map from fields to data, and an assignment writes one datum, or four of them if it
writes the edges of a box. What a field holds after assignments is what the last one that writes it
wants to have there, up to the comparison of data: a datum that compares as equal is left alone.

- `Field`, `Datum`, `BoxStyle.get`: the fields of a record.
- `Datum.Same`: data that are identical or compare as equal.
- `Assignment.at?`, `lastTo?`: what an assignment writes to a field, and what the last one writes.
- `BoxStyle.get_assignAll_of_some`, `BoxStyle.get_assignAll_of_none`: a field after assignments.
-/

namespace FlexStyle

/-- The fields of a box record. -/
inductive Field where
  | direction
  | keyword (field : KeywordField)
  | factor (field : FactorField)
  | aspectRatio
  | dimension (field : DimensionField)
  deriving DecidableEq

/-- What a field holds. -/
inductive Datum where
  | direction (value : Option (Keyword .direction))
  | keyword {e : Enumeration} (value : Keyword e)
  | factor (value : Single)
  | ratio (value : Option Single)
  | dimension (value : Dimension)
  deriving DecidableEq

namespace Datum

/-- Equality of data, with numbers compared as numbers. -/
def beq : Datum → Datum → Bool
  | .factor x, .factor y => x == y
  | .ratio x, .ratio y => x == y
  | .dimension d, .dimension e => d == e
  | a, b => a = b

/-- Whether data are identical or compare as equal. -/
def Same (a b : Datum) : Prop := a = b ∨ a.beq b = true

theorem Same.refl (a : Datum) : a.Same a := .inl rfl

/-- Keywords compare as equal only if they are identical. -/
theorem same_keyword {e : Enumeration} {k k' : Keyword e} :
    (keyword k).Same (keyword k') ↔ k = k' := by
  simp [Same, beq]

end Datum

/-- The datum in a field. -/
def BoxStyle.get (s : BoxStyle) : Field → Datum
  | .direction => .direction s.direction
  | .keyword field => .keyword (s.keyword field)
  | .factor field => .factor (s.factor field)
  | .aspectRatio => .ratio s.aspectRatio
  | .dimension field => .dimension (s.dimension field)

/-- What an assignment writes to a field. -/
def Assignment.at? : Assignment → Field → Option Datum
  | .direction value, .direction => some (.direction value)
  | .keyword field value, .keyword field' => if field' = field then some (.keyword value) else none
  | .factor field value, .factor field' => if field' = field then some (.factor value) else none
  | .aspectRatio value, .aspectRatio => some (.ratio value)
  | .dimension field value, .dimension field' =>
    if field' = field then some (.dimension value) else none
  | .edges box value, .dimension (.edge box' side) =>
    if box' = box then some (.dimension (value.get side)) else none
  | _, _ => none

/-- The edges of a box are written to the fields of this box only. -/
theorem Assignment.at?_edges_of_ne {box : EdgeBox} {edges : Edges} {f : Field}
    (h : ∀ side, f ≠ .dimension (.edge box side)) : (Assignment.edges box edges).at? f = none := by
  cases f with
  | dimension field =>
    cases field with
    | edge box' side =>
      have hne : box' ≠ box := fun heq => h side (heq ▸ rfl)
      exact if_neg hne
    | _ => rfl
  | _ => rfl

/-- What the last of some assignments that writes to a field writes there. -/
def lastTo? (f : Field) (assignments : List Assignment) : Option Datum :=
  (assignments.filterMap (·.at? f)).getLast?

@[simp] theorem lastTo?_nil (f : Field) : lastTo? f [] = none := rfl

/-- The last assignment to a field is in the second list, or else in the first one. -/
theorem lastTo?_append (f : Field) (first second : List Assignment) :
    lastTo? f (first ++ second) = (lastTo? f second).or (lastTo? f first) := by
  rw [lastTo?, List.filterMap_append, List.getLast?_append, lastTo?, lastTo?]

/-- The last assignment to a field is in the rest, or else the first one. -/
theorem lastTo?_cons (f : Field) (a : Assignment) (rest : List Assignment) :
    lastTo? f (a :: rest) = (lastTo? f rest).or (a.at? f) := by
  rw [← List.singleton_append, lastTo?_append]
  congr 1
  unfold lastTo?
  cases h : a.at? f <;> simp [h]

@[simp] theorem lastTo?_singleton (f : Field) (a : Assignment) : lastTo? f [a] = a.at? f := by
  rw [lastTo?_cons, lastTo?_nil, Option.none_or]

/-- The last datum for a field comes from an assignment that writes the field. -/
theorem exists_of_lastTo? {f : Field} {assignments : List Assignment} {d : Datum}
    (h : lastTo? f assignments = some d) : ∃ a ∈ assignments, a.at? f = some d :=
  List.mem_filterMap.mp (List.mem_of_getLast? h)

/-- There is no last assignment to a field if none writes it. -/
theorem lastTo?_eq_none_iff {f : Field} {assignments : List Assignment} :
    lastTo? f assignments = none ↔ ∀ a ∈ assignments, a.at? f = none := by
  rw [lastTo?, List.getLast?_eq_none_iff, List.filterMap_eq_nil_iff]

namespace Edges

/-- An edge that is set leaves the other edges as they are. -/
theorem get_set (edges : Edges) (side side' : Side) (d : Dimension) :
    (edges.set side d).get side' = if side' = side then d else edges.get side' := by
  cases side <;> cases side' <;> rfl

/-- Equal edges are equal side by side. -/
theorem get_of_beq {a b : Edges} (h : (a == b) = true) (side : Side) :
    (a.get side == b.get side) = true := by
  obtain ⟨a₁, a₂, a₃, a₄⟩ := a
  obtain ⟨b₁, b₂, b₃, b₄⟩ := b
  have hall : (a₁ == b₁ && a₂ == b₂ && a₃ == b₃ && a₄ == b₄) = true := h
  simp only [Bool.and_eq_true] at hall
  obtain ⟨⟨⟨h₁, h₂⟩, h₃⟩, h₄⟩ := hall
  cases side
  · exact h₁
  · exact h₂
  · exact h₃
  · exact h₄

end Edges

namespace BoxStyle

variable {s : BoxStyle} {f : Field}

/-! ## One assignment -/

/-- A keyword field that is set leaves the other ones as they are. -/
theorem keyword_setKeyword (s : BoxStyle) (field : KeywordField) (k : Keyword field.enumeration)
    (field' : KeywordField) :
    Datum.keyword ((s.setKeyword field k).keyword field') =
      if field' = field then .keyword k else .keyword (s.keyword field') := by
  cases field <;> cases field' <;> rfl

theorem factor_setFactor (s : BoxStyle) (field field' : FactorField) (x : Single) :
    (s.setFactor field x).factor field' = if field' = field then x else s.factor field' := by
  cases field <;> cases field' <;> rfl

theorem edges_setEdges (s : BoxStyle) (box box' : EdgeBox) (edges : Edges) :
    (s.setEdges box edges).edges box' = if box' = box then edges else s.edges box' := by
  cases box <;> cases box' <;> rfl

theorem dimension_setEdges (s : BoxStyle) (box : EdgeBox) (edges : Edges)
    (field : DimensionField) (h : ∀ side, field ≠ .edge box side) :
    (s.setEdges box edges).dimension field = s.dimension field := by
  cases field with
  | edge box' side =>
    have hne : box' ≠ box := fun heq => h side (heq ▸ rfl)
    show ((s.setEdges box edges).edges box').get side = _
    rw [edges_setEdges, if_neg hne]
    rfl
  | _ => cases box <;> rfl

/-- A dimension field that is set leaves the other ones as they are. -/
theorem dimension_setDimension (s : BoxStyle) (field field' : DimensionField) (d : Dimension) :
    (s.setDimension field d).dimension field' =
      if field' = field then d else s.dimension field' := by
  cases field with
  | edge box side =>
    show (s.setEdges box ((s.edges box).set side d)).dimension field' = _
    by_cases hedge : ∃ side', field' = .edge box side'
    · obtain ⟨side', rfl⟩ := hedge
      show ((s.setEdges box ((s.edges box).set side d)).edges box).get side' = _
      rw [edges_setEdges, if_pos rfl, Edges.get_set]
      by_cases hside : side' = side
      · rw [if_pos hside, if_pos (by rw [hside])]
      · rw [if_neg hside, if_neg (by simp [hside])]
        rfl
    · rw [dimension_setEdges s box _ field' fun side' heq => hedge ⟨side', heq⟩, if_neg]
      exact fun heq => hedge ⟨side, heq⟩
  | _ => cases field' <;> rfl

/-- Edges are written to no other fields than those of the sides. -/
theorem get_setEdges_of_ne (s : BoxStyle) (box : EdgeBox) (edges : Edges)
    (h : ∀ side, f ≠ .dimension (.edge box side)) : (s.setEdges box edges).get f = s.get f := by
  cases f with
  | dimension field =>
    refine congrArg Datum.dimension (s.dimension_setEdges box edges field fun side heq => ?_)
    exact h side (heq ▸ rfl)
  | keyword field => cases box <;> cases field <;> rfl
  | factor field => cases box <;> cases field <;> rfl
  | _ => cases box <;> rfl

theorem get_setDimension_of_ne (s : BoxStyle) (field : DimensionField) (d : Dimension)
    (h : ∀ field', f ≠ .dimension field') : (s.setDimension field d).get f = s.get f := by
  cases field with
  | edge box side => exact s.get_setEdges_of_ne box _ fun side => h _
  | _ =>
    cases f with
    | dimension field' => exact absurd rfl (h field')
    | keyword field' => cases field' <;> rfl
    | factor field' => cases field' <;> rfl
    | _ => rfl

/-- A part that is replaced holds the datum of the assignment. -/
theorem get_put (s : BoxStyle) (a : Assignment) (f : Field) :
    (s.put a).get f = (a.at? f).getD (s.get f) := by
  cases a with
  | direction value => cases f <;> rfl
  | keyword field value =>
    cases f with
    | keyword field' =>
      show Datum.keyword ((s.setKeyword field value).keyword field') = _
      rw [keyword_setKeyword]
      show _ = (if field' = field then some (Datum.keyword value) else none).getD _
      split <;> rfl
    | _ => cases field <;> rfl
  | factor field value =>
    cases f with
    | factor field' =>
      show Datum.factor ((s.setFactor field value).factor field') = _
      rw [factor_setFactor]
      show _ = (if field' = field then some (Datum.factor value) else none).getD _
      split <;> rfl
    | _ => cases field <;> rfl
  | aspectRatio value => cases f <;> rfl
  | dimension field value =>
    cases f with
    | dimension field' =>
      show Datum.dimension ((s.setDimension field value).dimension field') = _
      rw [dimension_setDimension]
      show _ = (if field' = field then some (Datum.dimension value) else none).getD _
      split <;> rfl
    | _ => exact s.get_setDimension_of_ne field value nofun
  | edges box value =>
    by_cases hside : ∃ side, f = .dimension (.edge box side)
    · obtain ⟨side, rfl⟩ := hside
      show Datum.dimension (((s.setEdges box value).edges box).get side) = _
      rw [edges_setEdges, if_pos rfl]
      simp [Assignment.at?]
    · rw [Assignment.at?_edges_of_ne fun side heq => hside ⟨side, heq⟩]
      exact s.get_setEdges_of_ne box value fun side heq => hside ⟨side, heq⟩

/-- A part that agrees with an assignment compares as equal to its datum. -/
theorem beq_of_agrees {a : Assignment} {d : Datum} (h : s.agrees a = true)
    (hd : a.at? f = some d) : (s.get f).beq d = true := by
  cases a with
  | direction value =>
    cases f with
    | direction =>
      cases hd
      have heq : s.direction = value := by simpa [agrees] using h
      exact decide_eq_true (congrArg Datum.direction heq)
    | _ => cases hd
  | keyword field value =>
    cases f with
    | keyword field' =>
      have hif : (if field' = field then some (Datum.keyword value) else none) = some d := hd
      obtain ⟨rfl, hvalue⟩ := Option.ite_none_right_eq_some.mp hif
      cases hvalue
      have heq : s.keyword field' = value := by simpa [agrees] using h
      exact decide_eq_true (congrArg Datum.keyword heq)
    | _ => cases hd
  | factor field value =>
    cases f with
    | factor field' =>
      have hif : (if field' = field then some (Datum.factor value) else none) = some d := hd
      obtain ⟨rfl, hvalue⟩ := Option.ite_none_right_eq_some.mp hif
      cases hvalue
      exact h
    | _ => cases hd
  | aspectRatio value =>
    cases f with
    | aspectRatio =>
      cases hd
      exact h
    | _ => cases hd
  | dimension field value =>
    cases f with
    | dimension field' =>
      have hif : (if field' = field then some (Datum.dimension value) else none) = some d := hd
      obtain ⟨rfl, hvalue⟩ := Option.ite_none_right_eq_some.mp hif
      cases hvalue
      exact h
    | _ => cases hd
  | edges box value =>
    by_cases hside : ∃ side, f = .dimension (.edge box side)
    · obtain ⟨side, rfl⟩ := hside
      obtain ⟨-, hd⟩ := Option.ite_none_right_eq_some.mp hd
      cases hd
      exact Edges.get_of_beq h side
    · rw [Assignment.at?_edges_of_ne fun side heq => hside ⟨side, heq⟩] at hd
      cases hd

/-- A field that an assignment writes holds the datum afterwards, or an equal one. -/
theorem get_assign_of_some {a : Assignment} {d : Datum} (hd : a.at? f = some d) :
    ((s.assign a).1.get f).Same d := by
  unfold assign
  split
  case isTrue h => exact .inr (beq_of_agrees h hd)
  case isFalse =>
    show ((s.put a).get f).Same d
    rw [get_put, hd]
    exact Datum.Same.refl d

/-- A field that an assignment does not write is left as it is. -/
theorem get_assign_of_none {a : Assignment} (h : a.at? f = none) :
    (s.assign a).1.get f = s.get f := by
  unfold assign
  split
  case isTrue => rfl
  case isFalse =>
    show (s.put a).get f = _
    rw [get_put, h]
    rfl

/-! ## Assignments in order -/

/-- An assignment that reports no change has made none. -/
theorem assign_of_false (s : BoxStyle) (a : Assignment) (h : (s.assign a).2 = false) :
    (s.assign a).1 = s := by
  unfold assign at h ⊢
  split
  case isTrue => rfl
  case isFalse hagrees =>
    rw [if_neg hagrees] at h
    cases h

/-- Assignments that report no change leave the record as it is. -/
theorem assignAll_of_false {assignments : List Assignment}
    (h : (s.assignAll assignments).2 = false) : (s.assignAll assignments).1 = s :=
  foldChanges_of_false assign assign_of_false h

/-- A field that is not written keeps its datum. -/
theorem get_assignAll_of_none {assignments : List Assignment} (h : lastTo? f assignments = none) :
    (s.assignAll assignments).1.get f = s.get f := by
  induction assignments generalizing s with
  | nil => rfl
  | cons a rest ih =>
    rw [lastTo?_cons, Option.or_eq_none_iff] at h
    exact (ih h.1).trans (get_assign_of_none h.2)

/-- A field that is written holds what is written last. -/
theorem get_assignAll_of_some {assignments : List Assignment} {d : Datum}
    (h : lastTo? f assignments = some d) : ((s.assignAll assignments).1.get f).Same d := by
  induction assignments generalizing s with
  | nil => cases h
  | cons a rest ih =>
    rw [lastTo?_cons] at h
    cases hrest : lastTo? f rest with
    | some later =>
      -- whatever the first assignment writes is written over
      rw [hrest] at h
      cases h
      exact ih hrest
    | none =>
      rw [hrest, Option.none_or] at h
      have hkeep : (s.assignAll (a :: rest)).1.get f = (s.assign a).1.get f :=
        get_assignAll_of_none (s := (s.assign a).1) hrest
      rw [hkeep]
      exact get_assign_of_some h

end BoxStyle

end FlexStyle
