import FlexStyle.Proofs.Property
import FlexStyle.Proofs.Value.Reader

/-!
# Accepted values are in range

Input of every form is checked on its own way, and all of them let the same numbers pass: finite
ones, and as ratio, percentage or length only those that are not negative. The one exception is a
ratio that is written as two numbers. These are checked, but their quotient is not, and it may be
too large for a number.

- `Raw.Overflows`: the exception.
- `Raw.inRange_toValue?_iff`: a value that is accepted is in range but for that.
- `Pattern.inRange_firstMatch?`, `Property.inRange_accept?_iff`: the same of rows of arguments.
- `inRange_accepted_iff`: all three together.
-/

namespace FlexStyle

/-- Whether the input is a text that writes a ratio of two numbers whose quotient is beyond all
finite ones. -/
def Raw.Overflows : Raw → Prop
  | .text t =>
    ∃ width i height j,
      Token.list (Text.trim Text.isBlank t.toList) =
        [.number width i, .delimiter '/', .number height j] ∧
      width.isFinite = true ∧ height.isFinite = true ∧ 0 ≤ width ∧ 0 < height ∧
      width / height = .infinite false
  | _ => False

/-! ## Texts -/

namespace Reader

/-- What is read of any kind but a ratio is in range. -/
theorem inRange_value {kind : Kind} {cursor after : Cursor} {v : Value} (hkind : kind ≠ .ratio)
    (h : value kind cursor = (.ok v, after)) : v.inRange = true := by
  cases kind with
  | ratio => exact absurd rfl hkind
  | percentage =>
    rw [value] at h
    obtain ⟨x, hread, rfl⟩ := map_eq_ok h
    obtain ⟨hfinite, hsign⟩ := percentage_eq_ok hread
    simp [Value.inRange, hfinite, hsign]
  | number =>
    rw [value] at h
    obtain ⟨x, hread, rfl⟩ := map_eq_ok h
    exact (number_eq_ok hread).1
  | length =>
    rw [value] at h
    obtain ⟨⟨x, unit⟩, hread, rfl⟩ := map_eq_ok h
    obtain ⟨hfinite, hsign⟩ := length_eq_ok hread
    simp [Value.inRange, hfinite, hsign]
  | _ =>
    rw [value] at h
    obtain ⟨a, -, rfl⟩ := map_eq_ok h
    rfl

end Reader

/-- A ratio of a text is in range, or the text overflows. -/
theorem Value.inRange_ratio_ofText?_iff {text : String} {v : Value}
    (h : Value.ofText? .ratio text = some v) :
    v.inRange = true ↔ ¬ (Raw.text text).Overflows := by
  obtain ⟨after, hread, hend⟩ := Value.ofText?_eq_some.mp h
  rw [Reader.value] at hread
  obtain ⟨x, hratio, rfl⟩ := Reader.map_eq_ok hread
  rcases Reader.ratio_eq_ok hratio hend with ⟨i, htokens, hfinite, hsign⟩ |
    ⟨width, i, height, j, htokens, hwidth, hheight, hw, hh, rfl⟩
  · -- one number, and so not two
    refine iff_of_true (by simp [inRange, hfinite, hsign]) ?_
    rintro ⟨width, i', height, j', htokens', -⟩
    cases htokens.symm.trans htokens'
  · obtain ⟨hsign, hfinite | hinfinite⟩ := Binary.div_cases hwidth hheight hw hh
    · refine iff_of_true (by simp [inRange, hfinite, hsign]) ?_
      rintro ⟨width', i', height', j', htokens', -, -, -, -, hinfinite⟩
      cases htokens.symm.trans htokens'
      rw [hinfinite] at hfinite
      cases hfinite
    · refine iff_of_false (by rw [hinfinite]; decide +kernel) (not_not_intro ?_)
      exact ⟨width, i, height, j, htokens, hwidth, hheight,
        (Binary.not_lt_zero_iff hwidth).mp hw, (Binary.not_le_zero_iff hheight).mp hh, hinfinite⟩

/-- A ratio that overflows is infinite. -/
theorem Raw.eq_infinite_of_overflows {raw : Raw} {v : Value} (h : raw.toValue? .ratio = some v)
    (hoverflows : raw.Overflows) : v = .ratio (.infinite false) := by
  cases raw with
  | text t =>
    obtain ⟨width, i, height, j, htokens, -, -, -, -, hinfinite⟩ := hoverflows
    obtain ⟨after, hread, hend⟩ := Value.ofText?_eq_some.mp h
    rw [Reader.value] at hread
    obtain ⟨x, hratio, rfl⟩ := Reader.map_eq_ok hread
    rcases Reader.ratio_eq_ok hratio hend with ⟨i', htokens', -⟩ |
      ⟨width', i', height', j', htokens', -, -, -, -, rfl⟩
    · cases htokens.symm.trans htokens'
    · cases htokens.symm.trans htokens'
      rw [hinfinite]
  | _ => exact hoverflows.elim

/-! ## All forms of input -/

namespace Raw

/-- Plain numbers are in range when they are accepted. -/
theorem inRange_ofInteger? {n : Int32} {kind : Kind} {v : Value}
    (h : ofInteger? n kind = some v) : v.inRange = true := by
  have hfinite := Binary.isFinite_ofInt n
  cases kind <;> simp only [ofInteger?, Option.ite_none_right_eq_some, Option.some.injEq,
    reduceCtorEq] at h
  case integer => subst h; rfl
  case number => subst h; exact hfinite
  all_goals
    obtain ⟨hn, rfl⟩ := h
    simp [Value.inRange, Value.pixels, hfinite, Binary.zero_le_ofInt hn]

theorem inRange_ofNumber? {x : Single} {kind : Kind} {v : Value}
    (h : ofNumber? x kind = some v) : v.inRange = true := by
  cases kind <;> simp only [ofNumber?, Option.ite_none_right_eq_some, Option.some.injEq,
    reduceCtorEq] at h
  all_goals
    obtain ⟨hx, rfl⟩ := h
    exact hx

/-- A value that is accepted is in range, unless it is a ratio that overflows. -/
theorem inRange_toValue?_iff {raw : Raw} {kind : Kind} {v : Value}
    (h : raw.toValue? kind = some v) :
    v.inRange = true ↔ ¬ (kind = .ratio ∧ raw.Overflows) := by
  cases raw with
  | text t =>
    by_cases hkind : kind = .ratio
    · subst hkind
      rw [Value.inRange_ratio_ofText?_iff h]
      simp
    · obtain ⟨after, hread, -⟩ := Value.ofText?_eq_some.mp h
      exact iff_of_true (Reader.inRange_value hkind hread) fun hratio => hkind hratio.1
  | unspecified => cases h
  | integer n => exact iff_of_true (inRange_ofInteger? h) And.right
  | number x => exact iff_of_true (inRange_ofNumber? h) And.right
  | keyword k =>
    obtain ⟨-, hv⟩ := Option.ite_none_right_eq_some.mp h
    cases hv
    exact iff_of_true rfl And.right
  | value w =>
    obtain ⟨hw, hv⟩ := Option.ite_none_right_eq_some.mp h
    cases hv
    exact iff_of_true ((Bool.and_eq_true _ _).mp hw).2 And.right
  | color c =>
    obtain ⟨-, hv⟩ := Option.ite_none_right_eq_some.mp h
    cases hv
    exact iff_of_true rfl And.right

/-- A ready value is accepted as its own kind if it is in range. -/
theorem toValue?_value_iff {v : Value} :
    (value v).toValue? v.kind = some v ↔ v.inRange = true := by
  simp [toValue?]

end Raw

/-! ## Rows of arguments -/

/-- What is related to a row of arguments, one by one, is related to some of them. -/
theorem exists_mem_of_forall₂ {α β : Type} {R : α → β → Prop} {as : List α} {bs : List β}
    (h : List.Forall₂ R as bs) {b : β} (hb : b ∈ bs) : ∃ a ∈ as, R a b := by
  induction h with
  | nil => cases hb
  | @cons a _ _ _ hab _ ih =>
    rcases List.mem_cons.mp hb with rfl | hb
    · exact ⟨a, List.mem_cons_self, hab⟩
    · obtain ⟨a', ha', hab'⟩ := ih hb
      exact ⟨a', List.mem_cons_of_mem _ ha', hab'⟩

/-- Each of the values that fit a pattern is what its argument stands for, under some kind. -/
theorem Pattern.toValue?_of_read? {pattern : Pattern} {arguments : List Raw}
    {values : List Value} (h : pattern.read? arguments = some values) :
    List.Forall₂ (fun (raw : Raw) (v : Value) => raw.toValue? v.kind = some v)
      arguments values := by
  induction pattern generalizing arguments values with
  | nil =>
    cases arguments with
    | nil => cases h; exact .nil
    | cons raw rest => cases h
  | cons slot pattern ih =>
    cases arguments with
    | nil => cases h
    | cons raw rest =>
      simp only [read?, bind, Option.bind_eq_some_iff, pure, Option.some.injEq] at h
      obtain ⟨v, hv, rest', hrest, rfl⟩ := h
      obtain ⟨kind, -, hread⟩ := List.exists_of_findSome?_eq_some hv
      refine .cons ?_ (ih hrest)
      rw [Raw.kind_toValue? hread]
      exact hread

/-- Each of the values that fit a pattern is in range, unless it is a ratio that overflows. -/
theorem Pattern.inRange_read? {pattern : Pattern} {arguments : List Raw} {values : List Value}
    (h : pattern.read? arguments = some values) :
    List.Forall₂ (fun (raw : Raw) (v : Value) =>
      v.inRange = true ↔ ¬ (v.kind = .ratio ∧ raw.Overflows)) arguments values :=
  (toValue?_of_read? h).imp fun _ _ hread => Raw.inRange_toValue?_iff hread

theorem Pattern.inRange_firstMatch? {patterns : List Pattern} {arguments : List Raw}
    {values : List Value} (h : Pattern.firstMatch? patterns arguments = some values) :
    List.Forall₂ (fun (raw : Raw) (v : Value) =>
      v.inRange = true ↔ ¬ (v.kind = .ratio ∧ raw.Overflows)) arguments values := by
  obtain ⟨pattern, -, hread⟩ := List.exists_of_findSome?_eq_some h
  exact inRange_read? hread

namespace Property

/-- Only one property takes ratios, and it takes one. -/
theorem eq_aspectRatio {p : Property} {pattern : Pattern} {slot : Slot}
    (hpattern : pattern ∈ p.patterns) (hslot : slot ∈ pattern) (hkind : .ratio ∈ slot) :
    p = .aspectRatio := by
  have hall : p = .aspectRatio ∨ ∀ pattern ∈ p.patterns, ∀ slot ∈ pattern, Kind.ratio ∉ slot := by
    cases p with
    | keyword field => exact .inr (by simp [patterns])
    | dimension field =>
      cases field with
      | edge box side => exact .inr (by cases box <;> cases side <;> decide)
      | _ => exact .inr (by decide)
    | edges shorthand => exact .inr (by cases shorthand <;> decide)
    | aspectRatio => exact .inl rfl
    | factor field => exact .inr (by simp [patterns])
    | _ => exact .inr (by decide)
  rcases hall with h | h
  · exact h
  · exact absurd hkind (h pattern hpattern slot hslot)

/-- The values that a property takes are in range, but for an aspect ratio that overflows. -/
theorem inRange_accept?_iff {p : Property} {arguments : List Raw} {values : List Value}
    (h : p.accept? arguments = some values) :
    (∀ v ∈ values, v.inRange = true) ↔
      ¬ (p = .aspectRatio ∧ ∃ raw ∈ arguments, raw.Overflows) := by
  obtain ⟨pattern, hpattern, hread⟩ := List.exists_of_findSome?_eq_some h
  have hrange := Pattern.inRange_read? hread
  have hfits := Pattern.fits_read? hread
  constructor
  · rintro hall ⟨rfl, raw, hraw, hoverflows⟩
    -- there is one argument, and its value is a ratio
    cases List.mem_singleton.mp hpattern
    obtain ⟨v, rfl, hkind⟩ := Pattern.fits_singleton hfits
    obtain ⟨raw', hmem, hiff⟩ := exists_mem_of_forall₂ hrange (List.mem_singleton_self v)
    have hlength := hrange.length_eq
    obtain ⟨only, rfl⟩ := List.length_eq_one_iff.mp hlength
    cases List.mem_singleton.mp hraw
    cases List.mem_singleton.mp hmem
    exact hiff.mp (hall v (List.mem_singleton_self v)) ⟨List.mem_singleton.mp hkind, hoverflows⟩
  · intro hnot v hv
    by_contra hout
    obtain ⟨raw, hraw, hiff⟩ := exists_mem_of_forall₂ hrange hv
    obtain ⟨slot, hslot, hkind⟩ := exists_mem_of_forall₂ hfits hv
    obtain ⟨hratio, hoverflows⟩ := not_not.mp fun hfine => hout (hiff.mpr hfine)
    rw [hratio] at hkind
    exact hnot ⟨eq_aspectRatio hpattern hslot hkind, raw, hraw, hoverflows⟩

end Property

/-- **Accepted values are in range**, and of the kind that was asked for, unless they are ratios
that overflow; the same holds of rows of arguments, and of what a property takes. A value is
accepted once more as it is exactly if it is in range. -/
theorem inRange_accepted_iff (raw : Raw) (kind : Kind) (patterns : List Pattern) (p : Property)
    (arguments : List Raw) :
    (∀ v, raw.toValue? kind = some v →
      v.kind = kind ∧ (v.inRange = true ↔ ¬ (kind = .ratio ∧ raw.Overflows)) ∧
        ((Raw.value v).toValue? kind = some v ↔ ¬ (kind = .ratio ∧ raw.Overflows))) ∧
      (∀ values, Pattern.firstMatch? patterns arguments = some values →
        List.Forall₂ (fun (raw : Raw) (v : Value) =>
          v.inRange = true ↔ ¬ (v.kind = .ratio ∧ raw.Overflows)) arguments values) ∧
      ∀ values, p.accept? arguments = some values →
        ((∀ v ∈ values, v.inRange = true) ↔
          ¬ (p = .aspectRatio ∧ ∃ raw ∈ arguments, raw.Overflows)) := by
  refine ⟨fun v h => ?_, fun values h => Pattern.inRange_firstMatch? h,
    fun values h => Property.inRange_accept?_iff h⟩
  have hkind := Raw.kind_toValue? h
  have hrange := Raw.inRange_toValue?_iff h
  refine ⟨hkind, hrange, ?_⟩
  rw [← hkind, Raw.toValue?_value_iff, hrange, hkind]

/-- A ratio of two numbers that does not overflow is in range, and accepted once more. -/
theorem inRange_accepted_wide :
    ∃ v, (Raw.text " 16 / 9 ").toValue? .ratio = some v ∧ v.inRange = true ∧
      ¬ (Raw.text " 16 / 9 ").Overflows ∧ (Raw.value v).toValue? .ratio = some v := by
  obtain ⟨v, hv, hrange⟩ : ∃ v ∈ (Raw.text " 16 / 9 ").toValue? .ratio, v.inRange = true := by
    decide +kernel
  obtain ⟨-, hiff, hagain⟩ :=
    (inRange_accepted_iff (.text " 16 / 9 ") .ratio [] .aspectRatio []).1 v hv
  have hfits := hiff.mp hrange
  exact ⟨v, hv, hrange, fun h => hfits ⟨rfl, h⟩, hagain.mpr hfits⟩

/-- Not every value that is accepted is in range: a ratio may come out as infinity. -/
theorem not_every_accepted_inRange :
    ¬ ∀ (raw : Raw) (kind : Kind) (v : Value), raw.toValue? kind = some v →
      v.kind = kind ∧ v.inRange = true := by
  intro hall
  have hread : (Raw.text "1e38/1e-38").toValue? .ratio = some (.ratio (.infinite false)) := by
    decide +kernel
  have hrange := (hall _ _ _ hread).2
  revert hrange
  decide +kernel

end FlexStyle
