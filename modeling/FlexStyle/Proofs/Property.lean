import FlexStyle.Property.BoxEffect
import FlexStyle.Proofs.Box
import FlexStyle.Proofs.Table.Evolution

/-!
# What properties write

Every field of a box record is written by one longhand, and by at most one shorthand that covers
it. All but `flex-flow` write the same fields whatever their values are.

- `Raw.kind_toValue?`, `Property.Admits.fits`: the kinds of the values that a property takes.
- `Property.writes`: the fields that a property may write; resets write all of them
  (`Property.lastTo?_resets`).
- `Property.family_of_writes`: the properties that write a field are of one family.
- `Property.Admits.covers`: the values that a property takes write all of its fields, except those
  of `flex-flow`.
-/

namespace FlexStyle

/-! ## Kinds of values -/

/-- A keyword is read back from a value. -/
theorem Value.asKeyword?_keyword {e : Enumeration} (k : Keyword e) :
    (keyword k).asKeyword? e = some k := by
  simp [asKeyword?, Keyword.as?]

/-- Every reader of values wraps what it reads in a value of its kind. -/
theorem Reader.value_eq_map (kind : Kind) :
    ∃ (α : Type) (reader : Reader α) (wrap : α → Value),
      value kind = reader.map wrap ∧ ∀ a, (wrap a).kind = kind := by
  cases kind <;> exact ⟨_, _, _, rfl, fun _ => rfl⟩

/-- A value that is read from a text is of the kind that was asked for. -/
theorem Value.kind_ofText? {kind : Kind} {text : String} {v : Value}
    (h : Value.ofText? kind text = some v) : v.kind = kind := by
  obtain ⟨α, reader, wrap, heq, hwrap⟩ := Reader.value_eq_map kind
  unfold Value.ofText? at h
  rw [heq] at h
  split at h
  case h_2 => cases h
  case h_1 value cursor hread =>
    obtain ⟨-, hv⟩ := Option.ite_none_right_eq_some.mp h
    cases hv
    unfold Reader.map at hread
    rcases hresult : reader { rest := Text.trim Text.isBlank text.toList } with ⟨result, after⟩
    rw [hresult] at hread
    cases result with
    | error e => cases hread
    | ok a =>
      cases hread
      exact hwrap a

/-- A value that is taken from an argument is of the kind that was asked for. -/
theorem Raw.kind_toValue? {kind : Kind} {raw : Raw} {v : Value}
    (h : raw.toValue? kind = some v) : v.kind = kind := by
  cases raw with
  | unspecified => cases h
  | text t => exact Value.kind_ofText? h
  | integer n =>
    cases kind <;> simp [toValue?, ofInteger?] at h <;> first
      | (subst h; rfl)
      | (obtain ⟨-, rfl⟩ := h; rfl)
  | number x =>
    cases kind <;> simp [toValue?, ofNumber?] at h <;> (obtain ⟨-, rfl⟩ := h; rfl)
  | keyword k =>
    obtain ⟨rfl, hv⟩ := Option.ite_none_right_eq_some.mp h
    cases hv
    rfl
  | value w =>
    obtain ⟨hkind, hv⟩ := Option.ite_none_right_eq_some.mp h
    cases hv
    simpa using ((Bool.and_eq_true _ _).mp hkind).1
  | color c =>
    obtain ⟨rfl, hv⟩ := Option.ite_none_right_eq_some.mp h
    cases hv
    rfl

/-- Values whose kinds are those that a pattern asks for. -/
def Pattern.Fits (pattern : Pattern) (values : List Value) : Prop :=
  List.Forall₂ (fun slot (v : Value) => v.kind ∈ slot) pattern values

/-- Values that are read by a pattern fit it, slot by slot. -/
theorem Pattern.fits_read? {pattern : Pattern} {arguments : List Raw} {values : List Value}
    (h : pattern.read? arguments = some values) : pattern.Fits values := by
  induction pattern generalizing arguments values with
  | nil =>
    cases arguments with
    | nil =>
      cases h
      exact .nil
    | cons raw rest => cases h
  | cons slot pattern ih =>
    cases arguments with
    | nil => cases h
    | cons raw rest =>
      simp only [read?, bind, Option.bind_eq_some_iff, pure, Option.some.injEq] at h
      obtain ⟨v, hv, rest', hrest, rfl⟩ := h
      obtain ⟨kind, hkind, hread⟩ := List.exists_of_findSome?_eq_some hv
      refine .cons ?_ (ih hrest)
      rw [Raw.kind_toValue? hread]
      exact hkind

theorem Pattern.fits_singleton {slot : Slot} {values : List Value}
    (h : Pattern.Fits [slot] values) :
    ∃ v, values = [v] ∧ v.kind ∈ slot := by
  cases h with
  | cons hv hrest =>
    cases hrest
    exact ⟨_, rfl, hv⟩

namespace Property

/-- The values that a property takes fit one of its patterns. -/
theorem Admits.fits {p : Property} {values : List Value} (h : p.Admits values) :
    ∃ pattern ∈ p.patterns, pattern.Fits values := by
  obtain ⟨arguments, haccept⟩ := h
  obtain ⟨pattern, hpattern, hread⟩ := List.exists_of_findSome?_eq_some haccept
  exact ⟨pattern, hpattern, Pattern.fits_read? hread⟩

theorem Admits.eq_singleton {p : Property} {values : List Value} {slot : Slot} (h : p.Admits values)
    (hpatterns : p.patterns = [[slot]]) : ∃ v, values = [v] ∧ v.kind ∈ slot := by
  obtain ⟨pattern, hpattern, hfits⟩ := h.fits
  rw [hpatterns, List.mem_singleton] at hpattern
  subst hpattern
  exact Pattern.fits_singleton hfits

/-! ## The fields of a property -/

/-- Whether a property may write a field. -/
def writes : Property → Field → Bool
  | direction, .direction => true
  | keyword field, .keyword field' => field' = field
  | factor field, .factor field' => field' = field
  | aspectRatio, .aspectRatio => true
  | dimension field, .dimension field' => field' = field
  | edges shorthand, .dimension (.edge box _) => box = shorthand.box
  | flex, .factor _ => true
  | flex, .dimension .flexBasis => true
  | flexFlow, .keyword .flexDirection => true
  | flexFlow, .keyword .flexWrap => true
  | gap, .dimension .rowGap => true
  | gap, .dimension .columnGap => true
  | _, _ => false

variable {p q : Property} {f : Field} {metrics : RelativeMetrics} {values : List Value}
  {a : Assignment}

/-- A property writes to no other fields than its own. -/
theorem writes_of_mem (ha : a ∈ p.assignments metrics values) (hf : a.at? f ≠ none) :
    p.writes f = true := by
  cases p with
  | direction =>
    simp only [assignments, List.mem_map] at ha
    obtain ⟨k, -, rfl⟩ := ha
    cases f <;> first | rfl | exact absurd rfl hf
  | keyword field =>
    simp only [assignments, List.mem_map] at ha
    obtain ⟨k, -, rfl⟩ := ha
    cases f with
    | keyword field' => simpa [Assignment.at?, writes] using hf
    | _ => exact absurd rfl hf
  | factor field =>
    simp only [assignments, List.mem_map] at ha
    obtain ⟨k, -, rfl⟩ := ha
    cases f with
    | factor field' => simpa [Assignment.at?, writes] using hf
    | _ => exact absurd rfl hf
  | aspectRatio =>
    unfold assignments at ha
    dsimp only at ha
    split at ha
    · rw [List.mem_singleton.mp ha] at hf
      cases f <;> first | rfl | exact absurd rfl hf
    · cases ha
  | dimension field =>
    simp only [assignments, List.mem_map] at ha
    obtain ⟨k, -, rfl⟩ := ha
    cases f with
    | dimension field' => simpa [Assignment.at?, writes] using hf
    | _ => exact absurd rfl hf
  | edges shorthand =>
    simp only [assignments, List.mem_map] at ha
    obtain ⟨edges, -, rfl⟩ := ha
    by_cases hside : ∃ side, f = .dimension (.edge shorthand.box side)
    · obtain ⟨side, rfl⟩ := hside
      simp [writes]
    · exact absurd (Assignment.at?_edges_of_ne fun side heq => hside ⟨side, heq⟩) hf
  | flex =>
    unfold assignments at ha
    dsimp only at ha
    split at ha
    · simp only [List.mem_cons, List.not_mem_nil, or_false] at ha
      rcases ha with rfl | rfl | rfl
      · cases f <;> first | rfl | exact absurd rfl hf
      · cases f <;> first | rfl | exact absurd rfl hf
      · cases f with
        | dimension field' => cases field' <;> first | rfl | exact absurd rfl hf
        | _ => exact absurd rfl hf
    · cases ha
  | flexFlow =>
    obtain ⟨value, -, hvalue⟩ := List.mem_filterMap.mp ha
    unfold flowAssignment? at hvalue
    split at hvalue
    · cases hvalue
      cases f with
      | keyword field' => cases field' <;> first | rfl | exact absurd rfl hf
      | _ => exact absurd rfl hf
    · obtain ⟨k, -, rfl⟩ := Option.map_eq_some_iff.mp hvalue
      cases f with
      | keyword field' => cases field' <;> first | rfl | exact absurd rfl hf
      | _ => exact absurd rfl hf
  | gap =>
    unfold assignments at ha
    dsimp only at ha
    split at ha
    · simp only [List.mem_cons, List.not_mem_nil, or_false] at ha
      rcases ha with rfl | rfl
      · cases f with
        | dimension field' => cases field' <;> first | rfl | exact absurd rfl hf
        | _ => exact absurd rfl hf
      · cases f with
        | dimension field' => cases field' <;> first | rfl | exact absurd rfl hf
        | _ => exact absurd rfl hf
    · cases ha
  | fontSize => cases ha
  | lineHeight => cases ha
  | textAlign => cases ha

/-- A property assigns nothing to fields that it does not write. -/
theorem lastTo?_assignments_of_not_writes (h : p.writes f = false) :
    lastTo? f (p.assignments metrics values) = none := by
  rw [lastTo?_eq_none_iff]
  intro a ha
  by_contra hf
  rw [writes_of_mem ha hf] at h
  cases h

/-- The assignments that put initial values back write all fields of the property. -/
theorem lastTo?_resets (p : Property) (initial : BoxStyle) (f : Field) :
    lastTo? f (p.resets initial) = if p.writes f then some (initial.get f) else none := by
  cases p with
  | direction => cases f <;> rfl
  | keyword field =>
    rw [resets, lastTo?_singleton]
    cases f with
    | keyword field' =>
      by_cases heq : field' = field
      · subst heq
        simp [Assignment.at?, writes, BoxStyle.get]
      · simp [Assignment.at?, writes, heq]
    | _ => rfl
  | factor field =>
    rw [resets, lastTo?_singleton]
    cases f with
    | factor field' =>
      by_cases heq : field' = field
      · subst heq
        simp [Assignment.at?, writes, BoxStyle.get]
      · simp [Assignment.at?, writes, heq]
    | _ => rfl
  | aspectRatio => cases f <;> rfl
  | dimension field =>
    rw [resets, lastTo?_singleton]
    cases f with
    | dimension field' =>
      by_cases heq : field' = field
      · subst heq
        simp [Assignment.at?, writes, BoxStyle.get]
      · simp [Assignment.at?, writes, heq]
    | _ => rfl
  | edges shorthand =>
    rw [resets, lastTo?_singleton]
    by_cases hside : ∃ side, f = .dimension (.edge shorthand.box side)
    · obtain ⟨side, rfl⟩ := hside
      simp [Assignment.at?, writes, BoxStyle.get, BoxStyle.dimension]
    · rw [Assignment.at?_edges_of_ne fun side heq => hside ⟨side, heq⟩, if_neg]
      intro hwrites
      cases f with
      | dimension field =>
        cases field with
        | edge box side =>
          have hbox : box = shorthand.box := by simpa [writes] using hwrites
          exact hside ⟨side, by rw [hbox]⟩
        | _ => cases hwrites
      | _ => cases hwrites
  | flex =>
    cases f with
    | factor field => cases field <;> rfl
    | dimension field => cases field <;> rfl
    | _ => rfl
  | flexFlow =>
    cases f with
    | keyword field => cases field <;> rfl
    | _ => rfl
  | gap =>
    cases f with
    | dimension field => cases field <;> rfl
    | _ => rfl
  | fontSize => cases f <;> rfl
  | lineHeight => cases f <;> rfl
  | textAlign => cases f <;> rfl

/-! ## Families -/

theorem mem_longhands_of_shorthand? (h : p.shorthand? = some q) : p ∈ q.longhands := by
  have hfound := List.find?_some h
  simpa using hfound

/-- Every property belongs to its own family. -/
theorem mem_family_self (p : Property) : p ∈ p.family := by
  unfold family
  cases h : p.shorthand? with
  | none => exact List.mem_cons_self
  | some head => exact List.mem_cons_of_mem _ (mem_longhands_of_shorthand? h)

/-- No longhand has two shorthands. -/
theorem shorthand?_of_mem_longhands (h : q ∈ p.longhands) : q.shorthand? = some p := by
  have hall : ∀ q ∈ p.longhands, q.shorthand? = some p := by
    cases p with
    | edges shorthand => cases shorthand <;> decide +kernel
    | flex | flexFlow | gap => decide +kernel
    | _ => exact fun q hq => absurd hq List.not_mem_nil
  exact hall q h

/-- No shorthand is a longhand of another one. -/
theorem shorthand?_eq_none (h : q ∈ p.longhands) : p.shorthand? = none := by
  cases p with
  | edges shorthand => cases shorthand <;> decide +kernel
  | flex | flexFlow | gap => decide +kernel
  | _ => cases h

theorem family_of_mem_longhands (h : q ∈ p.longhands) : q.family = p :: p.longhands := by
  rw [family, shorthand?_of_mem_longhands h]
  rfl

/-- A shorthand heads its family. -/
theorem family_of_shorthand (h : q ∈ p.longhands) : p.family = p :: p.longhands := by
  rw [family, shorthand?_eq_none h]
  rfl

theorem mem_family_of_mem_longhands (h : q ∈ p.longhands) : q ∈ p.family := by
  rw [family_of_shorthand h]
  exact List.mem_cons_of_mem _ h

/-- Families do not overlap. -/
theorem family_eq_of_mem (h : q ∈ p.family) : q.family = p.family := by
  cases hshort : p.shorthand? with
  | none =>
    have hp : p.family = p :: p.longhands := by rw [family, hshort]; rfl
    rw [hp] at h ⊢
    rcases List.mem_cons.mp h with rfl | hq
    · exact hp
    · exact family_of_mem_longhands hq
  | some head =>
    have hmem := mem_longhands_of_shorthand? hshort
    have hp := family_of_mem_longhands hmem
    rw [hp] at h ⊢
    rcases List.mem_cons.mp h with rfl | hq
    · exact family_of_shorthand hmem
    · exact family_of_mem_longhands hq

end Property

/-- The longhand that writes a field. -/
def Field.longhand : Field → Property
  | direction => .direction
  | keyword field => .keyword field
  | factor field => .factor field
  | aspectRatio => .aspectRatio
  | dimension field => .dimension field

namespace Property

variable {p q : Property} {f : Field} {metrics : RelativeMetrics} {values : List Value}

/-- The properties that write a field are relatives of its longhand. -/
theorem family_of_writes (h : p.writes f = true) : p.family = f.longhand.family := by
  have hmem : f.longhand ∈ p.family := by
    cases p with
    | direction => cases f <;> first | exact mem_family_self _ | cases h
    | keyword field =>
      cases f with
      | keyword field' =>
        have heq : field' = field := by simpa [writes] using h
        subst heq
        exact mem_family_self _
      | _ => cases h
    | factor field =>
      cases f with
      | factor field' =>
        have heq : field' = field := by simpa [writes] using h
        subst heq
        exact mem_family_self _
      | _ => cases h
    | aspectRatio => cases f <;> first | exact mem_family_self _ | cases h
    | dimension field =>
      cases f with
      | dimension field' =>
        have heq : field' = field := by simpa [writes] using h
        subst heq
        exact mem_family_self _
      | _ => cases h
    | edges shorthand =>
      cases f with
      | dimension field =>
        cases field with
        | edge box side =>
          have heq : box = shorthand.box := by simpa [writes] using h
          subst heq
          refine mem_family_of_mem_longhands ?_
          cases shorthand <;> cases side <;> decide
        | _ => cases h
      | _ => cases h
    | flex =>
      cases f with
      | factor field => cases field <;> exact mem_family_of_mem_longhands (by decide)
      | dimension field =>
        cases field <;> first | exact mem_family_of_mem_longhands (by decide) | cases h
      | _ => cases h
    | flexFlow =>
      cases f with
      | keyword field =>
        cases field <;> first | exact mem_family_of_mem_longhands (by decide) | cases h
      | _ => cases h
    | gap =>
      cases f with
      | dimension field =>
        cases field <;> first | exact mem_family_of_mem_longhands (by decide) | cases h
      | _ => cases h
    | fontSize => cases h
    | lineHeight => cases h
    | textAlign => cases h
  exact (family_eq_of_mem hmem).symm

/-! ## The fields that values write -/

/-- Lengths, percentages and `auto` are dimensions. -/
theorem exists_ofValue? (metrics : RelativeMetrics) {v : Value}
    (h : v.kind ∈ lengthPercentageOrAuto) : ∃ d, Dimension.ofValue? metrics v = some d := by
  cases v with
  | length x unit => exact ⟨_, rfl⟩
  | percentage x => exact ⟨_, rfl⟩
  | auto => exact ⟨_, rfl⟩
  | _ => simp [Value.kind, lengthPercentageOrAuto] at h

theorem lengthOrPercentage_subset : lengthOrPercentage ⊆ lengthPercentageOrAuto := by decide

theorem edgeSlot_subset (box : EdgeBox) : edgeSlot box ⊆ lengthPercentageOrAuto := by
  cases box <;> decide

theorem dimensionSlot_subset (field : DimensionField) :
    dimensionSlot field ⊆ lengthPercentageOrAuto := by
  cases field with
  | edge box side => exact edgeSlot_subset box
  | _ => decide

/-- One to four values that stand for dimensions stand for edges. -/
theorem exists_edges (metrics : RelativeMetrics) {slot : Slot}
    (hslot : slot ⊆ lengthPercentageOrAuto) {count : Nat}
    (hcount : count ∈ [1, 2, 3, 4]) (h : Pattern.Fits (List.replicate count slot) values) :
    ∃ edges, (values.mapM (Dimension.ofValue? metrics)).bind Edges.ofList? = some edges := by
  simp only [List.mem_cons, List.not_mem_nil, or_false] at hcount
  rcases hcount with rfl | rfl | rfl | rfl
  · obtain ⟨v, rfl, hv⟩ := Pattern.fits_singleton h
    obtain ⟨d, hd⟩ := exists_ofValue? metrics (hslot hv)
    exact ⟨_, by simp [hd, Edges.ofList?]; rfl⟩
  · obtain _ | ⟨hv₁, h⟩ := h
    obtain ⟨v₂, rfl, hv₂⟩ := Pattern.fits_singleton h
    obtain ⟨d₁, hd₁⟩ := exists_ofValue? metrics (hslot hv₁)
    obtain ⟨d₂, hd₂⟩ := exists_ofValue? metrics (hslot hv₂)
    exact ⟨_, by simp [hd₁, hd₂, Edges.ofList?]; rfl⟩
  · obtain _ | ⟨hv₁, _ | ⟨hv₂, h⟩⟩ := h
    obtain ⟨v₃, rfl, hv₃⟩ := Pattern.fits_singleton h
    obtain ⟨d₁, hd₁⟩ := exists_ofValue? metrics (hslot hv₁)
    obtain ⟨d₂, hd₂⟩ := exists_ofValue? metrics (hslot hv₂)
    obtain ⟨d₃, hd₃⟩ := exists_ofValue? metrics (hslot hv₃)
    exact ⟨_, by simp [hd₁, hd₂, hd₃, Edges.ofList?]; rfl⟩
  · obtain _ | ⟨hv₁, _ | ⟨hv₂, _ | ⟨hv₃, h⟩⟩⟩ := h
    obtain ⟨v₄, rfl, hv₄⟩ := Pattern.fits_singleton h
    obtain ⟨d₁, hd₁⟩ := exists_ofValue? metrics (hslot hv₁)
    obtain ⟨d₂, hd₂⟩ := exists_ofValue? metrics (hslot hv₂)
    obtain ⟨d₃, hd₃⟩ := exists_ofValue? metrics (hslot hv₃)
    obtain ⟨d₄, hd₄⟩ := exists_ofValue? metrics (hslot hv₄)
    exact ⟨_, by simp [hd₁, hd₂, hd₃, hd₄, Edges.ofList?]; rfl⟩

theorem exists_number {v : Value} (h : v.kind ∈ ([.number] : Slot)) : ∃ x, v = .number x := by
  cases v with
  | number x => exact ⟨x, rfl⟩
  | _ => simp [Value.kind] at h

theorem exists_keyword {v : Value} {e : Enumeration} (h : v.kind ∈ ([.keyword e] : Slot)) :
    ∃ k, v.asKeyword? e = some k := by
  cases v with
  | keyword k =>
    have heq : Kind.keyword _ = Kind.keyword e := List.mem_singleton.mp h
    cases heq
    exact ⟨k, Value.asKeyword?_keyword k⟩
  | _ => simp [Value.kind] at h

/-- The values of `flex` stand for two factors and a basis: the numbers among them, in their order,
and what is no number. What is not given is one, one and nothing. -/
theorem Admits.flexParts?_eq (h : flex.Admits values) (metrics : RelativeMetrics) :
    ∃ grow shrink basis d,
      (values.filter (·.kind = .number))[0]?.getD (.number 1) = .number grow ∧
      (values.filter (·.kind = .number))[1]?.getD (.number 1) = .number shrink ∧
      (values.find? (·.kind ≠ .number)).getD (.pixels 0) = basis ∧
      Dimension.ofValue? metrics basis = some d ∧
      flexParts? metrics values = some (grow, shrink, d) := by
  have hnumber : ∀ {v : Value}, v.kind ∈ factorOrBasis →
      (∃ x, v = .number x) ∨ v.kind ∈ lengthPercentageOrAuto := fun hv =>
    (List.mem_cons.mp hv).imp_left fun hkind => exists_number (List.mem_singleton.mpr hkind)
  have hbasis : ∀ {v : Value}, v.kind ∈ lengthPercentageOrAuto → v.kind ≠ .number := by
    intro v hv heq
    rw [heq] at hv
    exact absurd hv (by decide)
  have hkind : ∀ x, (Value.number x).kind = .number := fun _ => rfl
  obtain ⟨pattern, hpattern, hfits⟩ := h.fits
  simp only [patterns, List.mem_cons, List.not_mem_nil, or_false] at hpattern
  rcases hpattern with rfl | rfl | rfl
  · obtain ⟨v, rfl, hv⟩ := Pattern.fits_singleton hfits
    rcases hnumber hv with ⟨x, rfl⟩ | hv
    · exact ⟨x, 1, _, _, rfl, rfl, rfl, rfl, rfl⟩
    · obtain ⟨d, hd⟩ := exists_ofValue? metrics hv
      have hne := hbasis hv
      refine ⟨1, 1, v, d, by simp [hne], by simp [hne], by simp [hne], hd, ?_⟩
      cases v <;> simp_all [flexParts?, Dimension.ofValue?]
  · obtain _ | ⟨hgrow, hfits⟩ := hfits
    obtain ⟨v, rfl, hv⟩ := Pattern.fits_singleton hfits
    obtain ⟨grow, rfl⟩ := exists_number hgrow
    rcases hnumber hv with ⟨x, rfl⟩ | hv
    · exact ⟨grow, x, _, _, rfl, rfl, rfl, rfl, rfl⟩
    · obtain ⟨d, hd⟩ := exists_ofValue? metrics hv
      have hne := hbasis hv
      refine ⟨grow, 1, v, d, by simp [hkind], by simp [hkind, hne], by simp [hkind, hne], hd, ?_⟩
      cases v <;> simp_all [flexParts?, Dimension.ofValue?]
  · obtain _ | ⟨hgrow, _ | ⟨hshrink, hfits⟩⟩ := hfits
    obtain ⟨v, rfl, hv⟩ := Pattern.fits_singleton hfits
    obtain ⟨grow, rfl⟩ := exists_number hgrow
    obtain ⟨shrink, rfl⟩ := exists_number hshrink
    obtain ⟨d, hd⟩ := exists_ofValue? metrics hv
    have hne := hbasis hv
    exact ⟨grow, shrink, v, d, by simp [hkind], by simp [hkind], by simp [hkind, hne], hd,
      by simp [flexParts?, hd]⟩

/-- The values of `gap` stand for two dimensions. One value stands for both. -/
theorem Admits.gapParts?_eq (h : gap.Admits values) (metrics : RelativeMetrics) :
    ∃ row column,
      values[0]?.bind (Dimension.ofValue? metrics) = some row ∧
      (values[1]?.or values[0]?).bind (Dimension.ofValue? metrics) = some column ∧
      gapParts? metrics values = some (row, column) := by
  obtain ⟨pattern, hpattern, hfits⟩ := h.fits
  simp only [patterns, List.mem_cons, List.not_mem_nil, or_false] at hpattern
  rcases hpattern with rfl | rfl
  · obtain ⟨v, rfl, hv⟩ := Pattern.fits_singleton hfits
    obtain ⟨d, hd⟩ := exists_ofValue? metrics (lengthOrPercentage_subset hv)
    exact ⟨d, d, hd, hd, by simp [gapParts?, hd]⟩
  · obtain _ | ⟨hv₁, hfits⟩ := hfits
    obtain ⟨v₂, rfl, hv₂⟩ := Pattern.fits_singleton hfits
    obtain ⟨d₁, hd₁⟩ := exists_ofValue? metrics (lengthOrPercentage_subset hv₁)
    obtain ⟨d₂, hd₂⟩ := exists_ofValue? metrics (lengthOrPercentage_subset hv₂)
    exact ⟨d₁, d₂, hd₁, hd₂, by simp [gapParts?, hd₁, hd₂]⟩

/-- The values that a property takes write all of its fields, except those of `flex-flow`. -/
theorem Admits.covers (h : p.Admits values) (hflow : p ≠ .flexFlow) (hw : p.writes f = true)
    (metrics : RelativeMetrics) : ∃ d, lastTo? f (p.assignments metrics values) = some d := by
  cases p with
  | direction =>
    obtain ⟨v, rfl, hv⟩ := h.eq_singleton rfl
    obtain ⟨k, hk⟩ := exists_keyword hv
    cases f with
    | direction => exact ⟨.direction (some k), by simp [assignments, hk, Assignment.at?]⟩
    | _ => cases hw
  | keyword field =>
    obtain ⟨v, rfl, hv⟩ := h.eq_singleton rfl
    obtain ⟨k, hk⟩ := exists_keyword hv
    cases f with
    | keyword field' =>
      have heq : field' = field := by simpa [writes] using hw
      subst heq
      exact ⟨.keyword k, by simp [assignments, hk, Assignment.at?]⟩
    | _ => cases hw
  | factor field =>
    obtain ⟨v, rfl, hv⟩ := h.eq_singleton rfl
    obtain ⟨x, rfl⟩ := exists_number hv
    cases f with
    | factor field' =>
      have heq : field' = field := by simpa [writes] using hw
      subst heq
      exact ⟨.factor x, by simp [assignments, Value.asNumber?, Assignment.at?]⟩
    | _ => cases hw
  | aspectRatio =>
    obtain ⟨v, rfl, hv⟩ := h.eq_singleton rfl
    cases v with
    | ratio x =>
      cases f with
      | aspectRatio => exact ⟨.ratio (some x), rfl⟩
      | _ => cases hw
    | _ => simp [Value.kind] at hv
  | dimension field =>
    obtain ⟨v, rfl, hv⟩ := h.eq_singleton rfl
    obtain ⟨d, hd⟩ := exists_ofValue? metrics (dimensionSlot_subset field hv)
    cases f with
    | dimension field' =>
      have heq : field' = field := by simpa [writes] using hw
      subst heq
      exact ⟨.dimension d, by simp [assignments, hd, Assignment.at?]⟩
    | _ => cases hw
  | edges shorthand =>
    obtain ⟨pattern, hpattern, hfits⟩ := h.fits
    obtain ⟨count, hcount, rfl⟩ := List.mem_map.mp hpattern
    obtain ⟨edges, hedges⟩ := exists_edges metrics (edgeSlot_subset _) hcount hfits
    cases f with
    | dimension field =>
      cases field with
      | edge box side =>
        have heq : box = shorthand.box := by simpa [writes] using hw
        subst heq
        exact ⟨.dimension (edges.get side), by simp [assignments, hedges, Assignment.at?]⟩
      | _ => cases hw
    | _ => cases hw
  | flex =>
    obtain ⟨grow, shrink, -, basis, -, -, -, -, hparts⟩ := h.flexParts?_eq metrics
    cases f with
    | factor field =>
      cases field
      · exact ⟨.factor grow, by simp [assignments, hparts, lastTo?_cons, Assignment.at?]⟩
      · exact ⟨.factor shrink, by simp [assignments, hparts, lastTo?_cons, Assignment.at?]⟩
    | dimension field =>
      cases field with
      | flexBasis =>
        exact ⟨.dimension basis, by simp [assignments, hparts, lastTo?_cons, Assignment.at?]⟩
      | _ => cases hw
    | _ => cases hw
  | flexFlow => exact absurd rfl hflow
  | gap =>
    obtain ⟨row, column, -, -, hparts⟩ := h.gapParts?_eq metrics
    cases f with
    | dimension field =>
      cases field with
      | rowGap =>
        exact ⟨.dimension row, by simp [assignments, hparts, lastTo?_cons, Assignment.at?]⟩
      | columnGap =>
        exact ⟨.dimension column, by simp [assignments, hparts, lastTo?_cons, Assignment.at?]⟩
      | _ => cases hw
    | _ => cases hw
  | fontSize => cases hw
  | lineHeight => cases hw
  | textAlign => cases hw

end Property

/-! ## The fields of `flex-flow` -/

/-- Whether a field is one of those that `flex-flow` writes. -/
def Field.isFlow : Field → Bool
  | .keyword .flexDirection => true
  | .keyword .flexWrap => true
  | _ => false

theorem Property.flexFlow_writes (f : Field) : flexFlow.writes f = f.isFlow := by
  cases f with
  | keyword field => cases field <;> rfl
  | _ => rfl

end FlexStyle
