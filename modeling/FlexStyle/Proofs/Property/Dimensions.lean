import FlexStyle.Proofs.Binary.Sign
import FlexStyle.Proofs.Property.Ownership
import FlexStyle.Proofs.Value.Range

/-!
# The dimensions that properties write

All dimensions in a box record come from values, from the initial record, or from `flex`, whose
basis is nothing if it is not given. So what holds of these holds of all of them. Lengths and
percentages are accepted only if they are not below zero, and measuring keeps them so, as long as
the unit is not below zero; of the units, the line height is the one that may be, since a multiple
of the font's line height may be any number.

- `Value.Signless`: values without a length or percentage below zero; `Property.Admits.signless`
  says that properties take no others.
- `RelativeMetrics.Signless`, `LengthUnit.not_toPixels_lt_zero`: units that are not below zero.
- `Table.within_boxAssignments`: what holds of all dimensions that a table has to write.
- `BoxStyle.within_assignAll`: what holds of all dimensions in a record.
-/

namespace FlexStyle

/-! ## Values -/

/-- Whether a value carries no length or percentage below zero. -/
def Value.Signless : Value → Prop
  | .length x _ => ¬ x < 0
  | .percentage x => ¬ x < 0
  | _ => True

/-- Whether a value is a length in line heights. -/
def Value.countsLines : Value → Bool
  | .length _ .lh => true
  | _ => false

theorem Value.countsLines_length {x : Single} {unit : LengthUnit} :
    (Value.length x unit).countsLines = true ↔ unit = .lh := by
  cases unit <;> simp [countsLines]

theorem Value.signless_of_inRange {v : Value} (h : v.inRange = true) : v.Signless := by
  have hsign : ∀ {x : Single}, (x.isFinite && decide (0 ≤ x)) = true → ¬ x < 0 := by
    intro x hx
    obtain ⟨hfinite, hle⟩ := (Bool.and_eq_true _ _).mp hx
    exact (Binary.not_lt_zero_iff hfinite).mpr (of_decide_eq_true hle)
  cases v with
  | length x unit => exact hsign h
  | percentage x => exact hsign h
  | _ => trivial

/-- Properties take no lengths or percentages below zero. -/
theorem Property.Admits.signless {p : Property} {values : List Value} (h : p.Admits values) :
    ∀ v ∈ values, v.Signless := by
  intro v hv
  obtain ⟨arguments, haccept⟩ := h
  obtain ⟨raw, -, hrange⟩ := exists_mem_of_forall₂ (Pattern.inRange_firstMatch? haccept) hv
  by_cases hkind : v.kind = .ratio
  · -- a ratio may be out of range, but is no length
    cases v with
    | ratio x => trivial
    | _ => cases hkind
  · exact Value.signless_of_inRange (hrange.mpr fun hratio => hkind hratio.1)

/-! ## Units -/

/-- Whether no measure but the line height is below zero. -/
structure RelativeMetrics.Signless (metrics : RelativeMetrics) : Prop where
  fontSize : ¬ metrics.fontSize < 0
  zeroAdvance : ¬ metrics.zeroAdvance < 0
  xHeight : ¬ metrics.xHeight < 0
  ideographAdvance : ¬ metrics.ideographAdvance < 0

/-- A length that is not below zero measures nothing below zero, if its unit does not. -/
theorem LengthUnit.not_toPixels_lt_zero {metrics : RelativeMetrics} (h : metrics.Signless)
    {x : Single} (hx : ¬ x < 0) {unit : LengthUnit}
    (hline : unit = .lh → ¬ metrics.lineHeight < 0) : ¬ unit.toPixels metrics x < 0 := by
  cases unit with
  | px => exact hx
  | ch => exact Binary.not_mul_lt_zero hx h.zeroAdvance
  | em => exact Binary.not_mul_lt_zero hx h.fontSize
  | ex => exact Binary.not_mul_lt_zero hx h.xHeight
  | ic => exact Binary.not_mul_lt_zero hx h.ideographAdvance
  | lh => exact Binary.not_mul_lt_zero hx (hline rfl)

/-! ## Assignments -/

/-- Whether all dimensions that an assignment writes are of a kind. -/
def Assignment.Within (P : Dimension → Prop) : Assignment → Prop
  | .dimension _ d => P d
  | .edges _ sides => ∀ side, P (sides.get side)
  | _ => True

/-- Whether all dimensions of a record are of a kind. -/
def BoxStyle.Within (P : Dimension → Prop) (s : BoxStyle) : Prop := ∀ field, P (s.dimension field)

section Assignments

variable {P : Dimension → Prop} {metrics : RelativeMetrics} {initial s : BoxStyle}
  {values : List Value}

namespace Property

theorem mem_of_pick? {side : Side} {v : Value} (h : side.pick? values = some v) : v ∈ values := by
  have hmem : ∀ {i : Nat} {w : Value}, values[i]? = some w → w ∈ values := List.mem_of_getElem?
  cases side with
  | top => exact hmem h
  | right => exact (Option.or_eq_some_iff.mp h).elim hmem fun h => hmem h.2
  | bottom => exact (Option.or_eq_some_iff.mp h).elim hmem fun h => hmem h.2
  | left =>
    rcases Option.or_eq_some_iff.mp h with h | ⟨-, h⟩
    · exact hmem h
    · exact (Option.or_eq_some_iff.mp h).elim hmem fun h => hmem h.2

/-- The basis of `flex` is nothing, or what one of the values stands for. -/
theorem flexParts?_basis {grow shrink : Single} {basis : Dimension}
    (h : flexParts? metrics values = some (grow, shrink, basis)) :
    basis = .points 0 ∨ ∃ v ∈ values, Dimension.ofValue? metrics v = some basis := by
  have hgiven : ∀ {v : Value} {grow' shrink' : Single},
      (Dimension.ofValue? metrics v).map (grow', shrink', ·) = some (grow, shrink, basis) →
        Dimension.ofValue? metrics v = some basis := by
    intro v grow' shrink' hmap
    obtain ⟨d, hd, heq⟩ := Option.map_eq_some_iff.mp hmap
    cases heq
    exact hd
  unfold flexParts? at h
  split at h
  · cases h
    exact .inl rfl
  · exact .inr ⟨_, by simp, hgiven h⟩
  · cases h
    exact .inl rfl
  · exact .inr ⟨_, by simp, hgiven h⟩
  · exact .inr ⟨_, by simp, hgiven h⟩
  · cases h

theorem gapParts?_values {row column : Dimension}
    (h : gapParts? metrics values = some (row, column)) :
    (∃ v ∈ values, Dimension.ofValue? metrics v = some row) ∧
      ∃ v ∈ values, Dimension.ofValue? metrics v = some column := by
  unfold gapParts? at h
  split at h
  · obtain ⟨d, hd, heq⟩ := Option.map_eq_some_iff.mp h
    cases heq
    exact ⟨⟨_, by simp, hd⟩, _, by simp, hd⟩
  · simp only [bind, Option.bind_eq_some_iff, pure, Option.some.injEq] at h
    obtain ⟨d, hd, e, he, heq⟩ := h
    cases heq
    exact ⟨⟨_, by simp, hd⟩, _, by simp, he⟩
  · cases h

/-- The dimensions that a property writes come from its values, but for a basis of nothing. -/
theorem within_assignments (hzero : P (.points 0))
    (hvalues : ∀ v ∈ values, ∀ d, Dimension.ofValue? metrics v = some d → P d) (p : Property) :
    ∀ a ∈ p.assignments metrics values, a.Within P := by
  intro a ha
  cases p with
  | direction =>
    obtain ⟨k, -, rfl⟩ := List.mem_map.mp ha
    trivial
  | keyword field =>
    obtain ⟨k, -, rfl⟩ := List.mem_map.mp ha
    trivial
  | factor field =>
    obtain ⟨x, -, rfl⟩ := List.mem_map.mp ha
    trivial
  | aspectRatio =>
    rw [assignments] at ha
    split at ha
    · cases List.mem_singleton.mp ha
      trivial
    · cases ha
  | dimension field =>
    obtain ⟨d, hd, rfl⟩ := List.mem_map.mp ha
    obtain ⟨v, hv, hofValue⟩ := Option.bind_eq_some_iff.mp (Option.mem_toList.mp hd)
    exact hvalues v (List.mem_of_mem_head? hv) d hofValue
  | edges shorthand =>
    obtain ⟨edges, hedges, rfl⟩ := List.mem_map.mp ha
    intro side
    obtain ⟨v, hv, hofValue⟩ :=
      Option.bind_eq_some_iff.mp (get_of_ofList? (Option.mem_toList.mp hedges) side)
    exact hvalues v (mem_of_pick? hv) _ hofValue
  | flex =>
    rw [assignments] at ha
    split at ha
    case h_1 grow shrink basis hparts =>
      simp only [List.mem_cons, List.not_mem_nil, or_false] at ha
      rcases ha with rfl | rfl | rfl
      · trivial
      · trivial
      · rcases flexParts?_basis hparts with rfl | ⟨v, hv, hd⟩
        · exact hzero
        · exact hvalues v hv _ hd
    case h_2 => cases ha
  | flexFlow =>
    obtain ⟨v, -, hv⟩ := List.mem_filterMap.mp ha
    unfold flowAssignment? at hv
    split at hv
    · cases hv
      trivial
    · obtain ⟨k, -, rfl⟩ := Option.map_eq_some_iff.mp hv
      trivial
  | gap =>
    rw [assignments] at ha
    split at ha
    case h_1 row column hparts =>
      obtain ⟨⟨v, hv, hrow⟩, w, hw, hcolumn⟩ := gapParts?_values hparts
      simp only [List.mem_cons, List.not_mem_nil, or_false] at ha
      rcases ha with rfl | rfl
      · exact hvalues v hv _ hrow
      · exact hvalues w hw _ hcolumn
    case h_2 => cases ha
  | fontSize => cases ha
  | lineHeight => cases ha
  | textAlign => cases ha

/-- The dimensions that a property gives back are those of the initial record. -/
theorem within_resets (h : initial.Within P) (p : Property) :
    ∀ a ∈ p.resets initial, a.Within P := by
  intro a ha
  cases p with
  | dimension field =>
    cases List.mem_singleton.mp ha
    exact h field
  | edges shorthand =>
    cases List.mem_singleton.mp ha
    exact fun side => h (.edge shorthand.box side)
  | flex =>
    simp only [resets, List.mem_cons, List.not_mem_nil, or_false] at ha
    rcases ha with rfl | rfl | rfl
    · trivial
    · trivial
    · exact h .flexBasis
  | gap =>
    simp only [resets, List.mem_cons, List.not_mem_nil, or_false] at ha
    rcases ha with rfl | rfl
    · exact h .rowGap
    · exact h .columnGap
  | flexFlow =>
    simp only [resets, List.mem_cons, List.not_mem_nil, or_false] at ha
    rcases ha with rfl | rfl <;> trivial
  | fontSize => cases ha
  | lineHeight => cases ha
  | textAlign => cases ha
  | _ =>
    cases List.mem_singleton.mp ha
    trivial

end Property

/-! ## Tables and records -/

namespace Table

/-- What holds of the assignments of all live entries, and of those that give the initial values
back, holds of all that a row of entries stands for. -/
theorem forall_assignmentsAfter {Q : Assignment → Prop} {passed : Passed}
    {rows : List (Entry Property)} (hresets : ∀ p : Property, ∀ a ∈ p.resets initial, Q a)
    (hpassed : ∀ item ∈ passed, ∀ a ∈ item.1.assignments metrics item.2, Q a)
    (hrows : ∀ entry ∈ rows, entry.isRemoved = false →
      ∀ a ∈ entry.key.assignments metrics entry.values, Q a) :
    ∀ a ∈ assignmentsAfter metrics initial passed rows, Q a := by
  induction rows generalizing passed with
  | nil => simp [assignmentsAfter]
  | cons entry rest ih =>
    obtain ⟨hentry, hrest⟩ := List.forall_mem_cons.mp hrows
    cases hrem : entry.isRemoved with
    | false =>
      have hpass : ∀ item ∈ pass passed entry, ∀ a ∈ item.1.assignments metrics item.2, Q a := by
        intro item hitem
        rcases List.mem_append.mp hitem with hitem | hitem
        · exact hpassed item (List.mem_filter.mp hitem).1
        · rw [List.mem_singleton.mp hitem]
          exact hentry hrem
      rw [assignmentsAfter_live hrem]
      exact List.forall_mem_append.mpr ⟨hentry hrem, ih hpass hrest⟩
    | true =>
      cases hgone : entry.isGone with
      | false =>
        rw [assignmentsAfter_idle hrem hgone]
        exact ih hpassed hrest
      | true =>
        rw [assignmentsAfter_gone hgone]
        refine List.forall_mem_append.mpr ⟨List.forall_mem_append.mpr ⟨hresets _, ?_⟩,
          ih hpassed hrest⟩
        intro a ha
        obtain ⟨item, hitem, ha⟩ := List.mem_flatMap.mp ha
        exact hpassed item (List.mem_filter.mp hitem).1 a ha

/-- The dimensions that a table writes come from the values of its live entries and from the initial
record, but for a basis of nothing. Font sizes are none of them. -/
theorem within_boxAssignments {t : Table Property} (hinitial : initial.Within P)
    (hzero : P (.points 0))
    (hvalues : ∀ g p values, (g, p, values) ∈ t.liveList → p ≠ .fontSize → ∀ v ∈ values, ∀ d,
      Dimension.ofValue? metrics v = some d → P d) :
    ∀ a ∈ t.boxAssignments metrics initial, a.Within P := by
  rw [boxAssignments_eq]
  refine forall_assignmentsAfter (Property.within_resets hinitial) (by simp) ?_
  intro entry hentry hlive
  obtain ⟨g, hmem⟩ := exists_mem_of_mem_rows hentry
  by_cases hsize : entry.key = .fontSize
  · rw [hsize]
    simp [Property.assignments]
  · exact Property.within_assignments hzero
      (hvalues g entry.key entry.values (mem_liveList.mpr ⟨entry, hmem, hlive, rfl, rfl⟩) hsize)
      entry.key

end Table

namespace BoxStyle

theorem within_put (h : s.Within P) {a : Assignment} (ha : a.Within P) : (s.put a).Within P := by
  intro field
  have hsame : a.at? (.dimension field) = none → P ((s.put a).dimension field) := by
    intro hnone
    have hget := s.get_put a (.dimension field)
    rw [hnone] at hget
    rw [show (s.put a).dimension field = s.dimension field from Datum.dimension.inj hget]
    exact h field
  cases a with
  | dimension field' d =>
    show P ((s.setDimension field' d).dimension field)
    rw [dimension_setDimension]
    split
    · exact ha
    · exact h field
  | edges box sides =>
    by_cases hside : ∃ side, field = .edge box side
    · obtain ⟨side, rfl⟩ := hside
      show P (((s.setEdges box sides).edges box).get side)
      rw [edges_setEdges, if_pos rfl]
      exact ha side
    · exact hsame (Assignment.at?_edges_of_ne fun side heq => hside ⟨side, Field.dimension.inj heq⟩)
  | _ => exact hsame rfl

/-- Records stay of a kind if all that is assigned is. -/
theorem within_assignAll (h : s.Within P) {assignments : List Assignment}
    (hall : ∀ a ∈ assignments, a.Within P) : (s.assignAll assignments).1.Within P := by
  refine foldChanges_induction assign assignments (fun a ha r hr => ?_) h
  rw [assign]
  split
  · exact hr
  · exact within_put hr (hall a ha)

end BoxStyle

end Assignments

end FlexStyle
