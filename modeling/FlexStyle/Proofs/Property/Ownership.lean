import FlexStyle.Proofs.Inheritance
import FlexStyle.Proofs.Table.Application

/-!
# What a property owns

The forms of arguments that a property takes, what it does with the values, and what it does when it
is removed are written down apart from one another. They agree on the parts that the property owns:
whatever is accepted gives each of them a value, a removal gives each of them its initial or
inherited one, and no other part is touched. Only `flex-flow` with one word leaves alone the part
that the word does not belong to.

- `Styled`, `Part`: a box record with a text style, and its parts; `Styled.ext_get` says that there
  are no others.
- `Property.install`, `Property.reset`: a property with values, and a removed one. The application
  of a table is made of them: `Table.walk_live`, `Table.walk_gone`, `Table.assign?_textStep?`.
- `Property.owns`, `Property.expansion?`: the parts of a property, and what values stand for in
  each of them.
- `Property.Admits.lastTo?_eq`: what is assigned is what the values stand for.
- `Property.keepsToOwned_of_accept?`: whatever is accepted, installed or reset keeps to these parts.
-/

namespace FlexStyle

/-! ## Parts -/

/-- A box record and a text style, which properties write. -/
structure Styled where
  box : BoxStyle
  text : TextStyle

/-- The parts of a text style that properties write. The font is no such part. -/
inductive TextPart where
  | size
  | lineHeight
  | align
  deriving DecidableEq

/-- The parts that properties write. -/
inductive Part where
  | box (f : Field)
  | text (part : TextPart)
  deriving DecidableEq

/-- What a part of a text style holds. -/
def TextStyle.get (s : TextStyle) : TextPart → Datum
  | .size => .factor s.size
  | .lineHeight => .factor s.lineHeight
  | .align => .keyword s.align

/-- What a part holds. -/
def Styled.get (s : Styled) : Part → Datum
  | .box f => s.box.get f
  | .text part => s.text.get part

theorem Edges.ext_get {a b : Edges} (h : ∀ side, a.get side = b.get side) : a = b := by
  obtain ⟨a₁, a₂, a₃, a₄⟩ := a
  obtain ⟨b₁, b₂, b₃, b₄⟩ := b
  rw [Edges.mk.injEq]
  exact ⟨h .top, h .right, h .bottom, h .left⟩

/-- A record is determined by its fields. -/
theorem BoxStyle.ext_get {a b : BoxStyle} (h : ∀ f, a.get f = b.get f) : a = b := by
  have hdirection : a.direction = b.direction := by simpa [get] using h .direction
  have hratio : a.aspectRatio = b.aspectRatio := by simpa [get] using h .aspectRatio
  have hkeyword : ∀ field, a.keyword field = b.keyword field := fun field => by
    simpa [get] using h (.keyword field)
  have hfactor : ∀ field, a.factor field = b.factor field := fun field => by
    simpa [get] using h (.factor field)
  have hdimension : ∀ field, a.dimension field = b.dimension field := fun field => by
    simpa [get] using h (.dimension field)
  have hedges : ∀ box, a.edges box = b.edges box := fun box =>
    Edges.ext_get fun side => hdimension (.edge box side)
  cases a
  cases b
  rw [BoxStyle.mk.injEq]
  exact ⟨hdirection, hkeyword .display, hkeyword .position, hkeyword .flexDirection,
    hkeyword .flexWrap, hkeyword .justifyContent, hkeyword .alignContent, hkeyword .alignItems,
    hkeyword .alignSelf, hfactor .flexGrow, hfactor .flexShrink, hdimension .flexBasis, hratio,
    hedges .margin, hedges .padding, hedges .border, hedges .inset, hdimension .width,
    hdimension .height, hdimension .minWidth, hdimension .minHeight, hdimension .maxWidth,
    hdimension .maxHeight, hdimension .rowGap, hdimension .columnGap⟩

/-- Besides its parts, a text style has only its font. -/
theorem TextStyle.ext_get {a b : TextStyle} (h : ∀ part, a.get part = b.get part)
    (hfont : a.font = b.font) : a = b := by
  have hsize : a.size = b.size := by simpa [get] using h .size
  have hline : a.lineHeight = b.lineHeight := by simpa [get] using h .lineHeight
  have halign : a.align = b.align := by simpa [get] using h .align
  cases a
  cases b
  rw [TextStyle.mk.injEq]
  exact ⟨hfont, hsize, hline, halign⟩

theorem Styled.ext_get {a b : Styled} (h : ∀ part, a.get part = b.get part)
    (hfont : a.text.font = b.text.font) : a = b := by
  obtain ⟨box, text⟩ := a
  obtain ⟨box', text'⟩ := b
  rw [Styled.mk.injEq]
  exact ⟨BoxStyle.ext_get fun f => h (.box f), TextStyle.ext_get (fun part => h (.text part)) hfont⟩

/-! ## Installs and resets -/

namespace Property

/-- What a property with values makes of a box record and a text style. -/
def install (fonts : Fonts) (inherited : TextStyle) (p : Property) (values : List Value)
    (s : Styled) : Styled where
  box := (s.box.assignAll (p.assignments (s.text.metrics fonts) values)).1
  text := s.text.assign? (p.textAssignment? fonts inherited s.text.font values)

/-- What a property that has been removed makes of them. -/
def reset (initial : BoxStyle) (inherited : TextStyle) (p : Property) (s : Styled) : Styled where
  box := (s.box.assignAll (p.resets initial)).1
  text := s.text.assign? (p.textReset? inherited)

end Property

namespace Table

variable {fonts : Fonts} {initial : BoxStyle} {inherited : TextStyle} {passed : Passed}
  {entry : Entry Property} {rest : List (Entry Property)}

/-- A walk installs an entry that holds values. -/
theorem walk_live (s : Styled) (h : entry.isRemoved = false) :
    (s.box.assignAll
      (assignmentsAfter (s.text.metrics fonts) initial passed (entry :: rest))).1 =
    ((entry.key.install fonts inherited entry.values s).box.assignAll
      (assignmentsAfter (s.text.metrics fonts) initial (pass passed entry) rest)).1 := by
  rw [assignmentsAfter_live h]
  exact foldChanges_append_fst _ _ _ _

/-- A walk resets an entry that is gone, before it goes back to what it has passed. -/
theorem walk_gone (s : Styled) (h : entry.isGone = true) :
    (s.box.assignAll
      (assignmentsAfter (s.text.metrics fonts) initial passed (entry :: rest))).1 =
    ((entry.key.reset initial inherited s).box.assignAll
      ((passed.filter (·.1 ∈ entry.key.family)).flatMap
          (fun (q, values) => q.assignments (s.text.metrics fonts) values) ++
        assignmentsAfter (s.text.metrics fonts) initial passed rest)).1 := by
  rw [assignmentsAfter_gone h, List.append_assoc]
  exact foldChanges_append_fst _ _ _ _

/-- A property of the text style is installed if it is set, and reset if it is not. -/
theorem assign?_textStep? (t : Table Property) (p : Property) (s : Styled) :
    s.text.assign? (t.textStep? fonts inherited s.text.font p) =
      match t.cascaded? p with
      | some (_, entry) => (p.install fonts inherited entry.values s).text
      | none => (p.reset initial inherited s).text := by
  unfold textStep?
  cases t.cascaded? p <;> rfl

end Table

/-- The property that writes a part of a text style. -/
def TextPart.longhand : TextPart → Property
  | size => .fontSize
  | lineHeight => .lineHeight
  | align => .textAlign

/-- Whether a property writes a part. -/
def Property.owns (p : Property) : Part → Bool
  | .box f => p.writes f
  | .text part => p = part.longhand

/-! ## Expansions -/

/-- The property that writes a part and no other one. -/
def Part.longhand : Part → Property
  | box f => f.longhand
  | text part => part.longhand

/-- The value for a side among one to four values. A side without a value of its own takes that of
the side across, or else the first one. -/
def Side.pick? {α : Type} (values : List α) : Side → Option α
  | .top => values[0]?
  | .right => values[1]?.or values[0]?
  | .bottom => values[2]?.or values[0]?
  | .left => values[3]?.or (values[1]?.or values[0]?)

/-- The value that falls to a part. The numbers among the values of `flex` are the grow and the
shrink factor, in this order, and what is no number is the basis; what is not given is one, one and
nothing. The words of `flex-flow` fall to the parts whose words they are. -/
def Property.valueFor? (p : Property) (values : List Value) (part : Part) : Option Value :=
  match p, part with
  | edges shorthand, .box (.dimension (.edge box side)) =>
    if box = shorthand.box then side.pick? values else none
  | flex, .box (.factor .flexGrow) =>
    some ((values.filter (·.kind = .number))[0]?.getD (.number 1))
  | flex, .box (.factor .flexShrink) =>
    some ((values.filter (·.kind = .number))[1]?.getD (.number 1))
  | flex, .box (.dimension .flexBasis) =>
    some ((values.find? (·.kind ≠ .number)).getD (.pixels 0))
  | flexFlow, .box (.keyword .flexDirection) => values.find? (·.kind = .keyword .flexDirection)
  | flexFlow, .box (.keyword .flexWrap) => values.find? (·.kind = .keyword .flexWrap)
  | gap, .box (.dimension .rowGap) => values[0]?
  | gap, .box (.dimension .columnGap) => values[1]?.or values[0]?
  | p, part => if p = part.longhand then values.head? else none

/-- What a value stands for in a field of the box record. -/
def Field.datum? (metrics : RelativeMetrics) (v : Value) : Field → Option Datum
  | direction => (v.asKeyword? .direction).map fun k => .direction (some k)
  | keyword field => (v.asKeyword? field.enumeration).map .keyword
  | factor _ => v.asNumber?.map .factor
  | aspectRatio =>
    match v with
    | .ratio x => some (.ratio (some x))
    | _ => none
  | dimension _ => (Dimension.ofValue? metrics v).map .dimension

/-- What a value stands for in a part of the text style `s` of a node. A font size is measured with
the inherited text style, but in the font of the node. -/
def TextPart.datum? (fonts : Fonts) (inherited s : TextStyle) (v : Value) : TextPart → Option Datum
  | size =>
    match v with
    | .length x unit =>
      some (.factor (unit.toPixels ({ inherited with font := s.font }.metrics fonts) x))
    | .percentage x => some (.factor (inherited.size * x / 100))
    | _ => none
  | lineHeight => v.asNumber?.map .factor
  | align => (v.asKeyword? .textAlign).map .keyword

/-- What a value stands for in a part. Lengths in the box record are measured with the text style of
the node. -/
def Part.datum? (fonts : Fonts) (inherited s : TextStyle) (v : Value) : Part → Option Datum
  | box f => f.datum? (s.metrics fonts) v
  | text part => part.datum? fonts inherited s v

/-- What the values of a property stand for in a part. -/
def Property.expansion? (fonts : Fonts) (inherited text : TextStyle) (p : Property)
    (values : List Value) (part : Part) : Option Datum :=
  (p.valueFor? values part).bind (part.datum? fonts inherited text)

/-! ## Longhands of fields -/

section Longhands

variable {metrics : RelativeMetrics} {values : List Value} {v : Value} {f f' : Field} {d : Datum}

theorem Field.writes_longhand (f : Field) : f.longhand.writes f = true := by
  cases f <;> simp [longhand, Property.writes]

theorem Field.longhand_injective (h : f.longhand = f'.longhand) : f = f' := by
  cases f <;> cases f' <;> cases h <;> rfl

/-- The longhand of a field takes one value, which stands for something in the field. -/
theorem Field.exists_datum? (metrics : RelativeMetrics) (h : f.longhand.Admits values) :
    ∃ v d, values = [v] ∧ f.datum? metrics v = some d := by
  cases f with
  | direction =>
    obtain ⟨v, rfl, hv⟩ := h.eq_singleton rfl
    obtain ⟨k, hk⟩ := Property.exists_keyword hv
    exact ⟨v, .direction (some k), rfl, by rw [datum?, hk]; rfl⟩
  | keyword field =>
    obtain ⟨v, rfl, hv⟩ := h.eq_singleton rfl
    obtain ⟨k, hk⟩ := Property.exists_keyword hv
    exact ⟨v, .keyword k, rfl, by rw [datum?, hk]; rfl⟩
  | factor field =>
    obtain ⟨v, rfl, hv⟩ := h.eq_singleton rfl
    obtain ⟨x, rfl⟩ := Property.exists_number hv
    exact ⟨_, .factor x, rfl, rfl⟩
  | aspectRatio =>
    obtain ⟨v, rfl, hv⟩ := h.eq_singleton rfl
    cases v with
    | ratio x => exact ⟨_, .ratio (some x), rfl, rfl⟩
    | _ => simp [Value.kind] at hv
  | dimension field =>
    obtain ⟨v, rfl, hv⟩ := h.eq_singleton rfl
    obtain ⟨d, hd⟩ := Property.exists_ofValue? metrics (Property.dimensionSlot_subset field hv)
    exact ⟨v, .dimension d, rfl, by rw [datum?, hd]; rfl⟩

/-- The longhand of a field assigns what its value stands for, to no other field. -/
theorem Field.lastTo?_longhand (hd : f.datum? metrics v = some d) (f' : Field) :
    lastTo? f' (f.longhand.assignments metrics [v]) = if f = f' then some d else none := by
  cases f with
  | direction =>
    obtain ⟨k, hk, rfl⟩ := Option.map_eq_some_iff.mp hd
    cases f' <;> simp [longhand, Property.assignments, hk, Assignment.at?]
  | keyword field =>
    obtain ⟨k, hk, rfl⟩ := Option.map_eq_some_iff.mp hd
    cases f' <;> simp [longhand, Property.assignments, hk, Assignment.at?, eq_comm]
  | factor field =>
    obtain ⟨x, hx, rfl⟩ := Option.map_eq_some_iff.mp hd
    cases f' <;> simp [longhand, Property.assignments, hx, Assignment.at?, eq_comm]
  | aspectRatio =>
    cases v <;> cases hd
    cases f' <;> simp [longhand, Property.assignments, Assignment.at?]
  | dimension field =>
    obtain ⟨e, he, rfl⟩ := Option.map_eq_some_iff.mp hd
    cases f' <;> simp [longhand, Property.assignments, he, Assignment.at?, eq_comm]

theorem Field.valueFor?_longhand (f f' : Field) (values : List Value) :
    f.longhand.valueFor? values (.box f') = if f = f' then values.head? else none := by
  have hvalue : f.longhand.valueFor? values (.box f') =
      if f.longhand = f'.longhand then values.head? else none := by
    cases f <;> rfl
  rw [hvalue]
  by_cases hf : f = f'
  · rw [if_pos (congrArg longhand hf), if_pos hf]
  · rw [if_neg fun heq => hf (longhand_injective heq), if_neg hf]

end Longhands

/-! ## Shorthands -/

namespace Property

variable {metrics : RelativeMetrics} {values : List Value} {v : Value} {f : Field}

theorem forall₂_of_mapM {α β : Type} {g : α → Option β} {as : List α} {bs : List β}
    (h : as.mapM g = some bs) : List.Forall₂ (fun a b => g a = some b) as bs := by
  induction as generalizing bs with
  | nil =>
    cases h
    exact .nil
  | cons a rest ih =>
    simp only [List.mapM_cons, bind, Option.bind_eq_some_iff, pure, Option.some.injEq] at h
    obtain ⟨b, hb, bs, hbs, rfl⟩ := h
    exact .cons hb (ih hbs)

/-- Edges of one to four values have on each side what the value for the side stands for. -/
theorem get_of_ofList? {edges : Edges}
    (h : (values.mapM (Dimension.ofValue? metrics)).bind Edges.ofList? = some edges)
    (side : Side) : (side.pick? values).bind (Dimension.ofValue? metrics) =
      some (edges.get side) := by
  obtain ⟨ds, hds, hedges⟩ := Option.bind_eq_some_iff.mp h
  have hvalues := forall₂_of_mapM hds
  unfold Edges.ofList? at hedges
  split at hedges
  · obtain _ | ⟨h₁, ⟨⟩⟩ := hvalues
    cases hedges
    cases side <;> exact h₁
  · obtain _ | ⟨h₁, _ | ⟨h₂, ⟨⟩⟩⟩ := hvalues
    cases hedges
    cases side <;> first | exact h₁ | exact h₂
  · obtain _ | ⟨h₁, _ | ⟨h₂, _ | ⟨h₃, ⟨⟩⟩⟩⟩ := hvalues
    cases hedges
    cases side <;> first | exact h₁ | exact h₂ | exact h₃
  · obtain _ | ⟨h₁, _ | ⟨h₂, _ | ⟨h₃, _ | ⟨h₄, ⟨⟩⟩⟩⟩⟩ := hvalues
    cases hedges
    cases side <;> first | exact h₁ | exact h₂ | exact h₃ | exact h₄
  · cases hedges

/-- No value falls to a field that the property does not write. -/
theorem valueFor?_of_not_writes {p : Property} (h : p.writes f = false) :
    p.valueFor? values (.box f) = none := by
  have hrest : (if p = f.longhand then values.head? else none) = none := by
    refine if_neg ?_
    rintro rfl
    rw [Field.writes_longhand] at h
    cases h
  cases p with
  | edges shorthand =>
    cases f with
    | dimension field =>
      cases field with
      | edge box side =>
        have hbox : box ≠ shorthand.box := by simpa [writes] using h
        exact if_neg hbox
      | _ => exact hrest
    | _ => exact hrest
  | flex =>
    cases f with
    | factor field => cases h
    | dimension field => cases field <;> first | exact hrest | cases h
    | _ => exact hrest
  | flexFlow =>
    cases f with
    | keyword field => cases field <;> first | exact hrest | cases h
    | _ => exact hrest
  | gap =>
    cases f with
    | dimension field => cases field <;> first | exact hrest | cases h
    | _ => exact hrest
  | _ => exact hrest

/-- The words of `flex-flow`: one for either field, or one for each. -/
theorem Admits.flexFlow_cases (h : flexFlow.Admits values) :
    (∃ k : Keyword .flexDirection, values = [.keyword k]) ∨
      (∃ k : Keyword .flexWrap, values = [.keyword k]) ∨
      ∃ (k : Keyword .flexDirection) (k' : Keyword .flexWrap),
        values = [.keyword k, .keyword k'] := by
  have hword : ∀ {v : Value} {e : Enumeration}, v.kind = .keyword e →
      ∃ k : Keyword e, v = .keyword k := by
    intro v e hv
    cases v with
    | keyword k =>
      cases hv
      exact ⟨k, rfl⟩
    | _ => cases hv
  obtain ⟨pattern, hpattern, hfits⟩ := h.fits
  simp only [patterns, List.mem_cons, List.not_mem_nil, or_false] at hpattern
  rcases hpattern with rfl | rfl
  · obtain ⟨v, rfl, hv⟩ := Pattern.fits_singleton hfits
    simp only [List.mem_cons, List.not_mem_nil, or_false] at hv
    rcases hv with hv | hv
    · obtain ⟨k, rfl⟩ := hword hv
      exact .inl ⟨k, rfl⟩
    · obtain ⟨k, rfl⟩ := hword hv
      exact .inr (.inl ⟨k, rfl⟩)
  · obtain _ | ⟨hv, hfits⟩ := hfits
    obtain ⟨v', rfl, hv'⟩ := Pattern.fits_singleton hfits
    obtain ⟨k, rfl⟩ := hword (List.mem_singleton.mp hv)
    obtain ⟨k', rfl⟩ := hword (List.mem_singleton.mp hv')
    exact .inr (.inr ⟨k, k', rfl⟩)

/-- What is assigned last to a field is what the value that falls to it stands for. -/
theorem Admits.lastTo?_eq {p : Property} (h : p.Admits values) (metrics : RelativeMetrics)
    (f : Field) : lastTo? f (p.assignments metrics values) =
      (p.valueFor? values (.box f)).bind (f.datum? metrics) := by
  by_cases hw : p.writes f = true
  case neg =>
    have hw : p.writes f = false := by simpa using hw
    rw [lastTo?_assignments_of_not_writes hw, valueFor?_of_not_writes hw]
    rfl
  have longhand : ∀ f₀ : Field, p = f₀.longhand → lastTo? f (p.assignments metrics values) =
      (p.valueFor? values (.box f)).bind (f.datum? metrics) := by
    rintro f₀ rfl
    obtain ⟨v, d, rfl, hd⟩ := Field.exists_datum? metrics h
    rw [Field.lastTo?_longhand hd, Field.valueFor?_longhand]
    by_cases hf : f₀ = f
    · subst hf
      rw [if_pos rfl, if_pos rfl]
      exact hd.symm
    · rw [if_neg hf, if_neg hf]
      rfl
  cases p with
  | direction => exact longhand .direction rfl
  | keyword field => exact longhand (.keyword field) rfl
  | factor field => exact longhand (.factor field) rfl
  | aspectRatio => exact longhand .aspectRatio rfl
  | dimension field => exact longhand (.dimension field) rfl
  | edges shorthand =>
    obtain ⟨pattern, hpattern, hfits⟩ := h.fits
    obtain ⟨count, hcount, rfl⟩ := List.mem_map.mp hpattern
    obtain ⟨edges, hedges⟩ := exists_edges metrics (edgeSlot_subset _) hcount hfits
    cases f with
    | dimension field =>
      cases field with
      | edge box side =>
        have heq : box = shorthand.box := by simpa [writes] using hw
        subst heq
        obtain ⟨v, hv, hd⟩ := Option.bind_eq_some_iff.mp (get_of_ofList? hedges side)
        simp [assignments, hedges, Assignment.at?, valueFor?, hv, Field.datum?, hd]
      | _ => cases hw
    | _ => cases hw
  | flex =>
    obtain ⟨grow, shrink, basis, d, hgrow, hshrink, hbasis, hd, hparts⟩ := h.flexParts?_eq metrics
    cases f with
    | factor field =>
      cases field
      · simp [assignments, hparts, lastTo?_cons, Assignment.at?, valueFor?, hgrow, Field.datum?,
          Value.asNumber?]
      · simp [assignments, hparts, lastTo?_cons, Assignment.at?, valueFor?, hshrink, Field.datum?,
          Value.asNumber?]
    | dimension field =>
      cases field with
      | flexBasis =>
        have hvalue : flex.valueFor? values (.box (.dimension .flexBasis)) = some basis :=
          congrArg some hbasis
        simp [assignments, hparts, lastTo?_cons, Assignment.at?, hvalue, hd, Field.datum?]
      | _ => cases hw
    | _ => cases hw
  | flexFlow =>
    cases f with
    | keyword field =>
      rcases h.flexFlow_cases with ⟨k, rfl⟩ | ⟨k, rfl⟩ | ⟨k, k', rfl⟩ <;>
        cases field <;> rfl
    | _ => cases hw
  | gap =>
    obtain ⟨row, column, hrow, hcolumn, hparts⟩ := h.gapParts?_eq metrics
    cases f with
    | dimension field =>
      cases field with
      | rowGap =>
        obtain ⟨v, hv, hd⟩ := Option.bind_eq_some_iff.mp hrow
        simp [assignments, hparts, lastTo?_cons, Assignment.at?, valueFor?, hv, hd, Field.datum?]
      | columnGap =>
        obtain ⟨v, hv, hd⟩ := Option.bind_eq_some_iff.mp hcolumn
        simp [assignments, hparts, lastTo?_cons, Assignment.at?, valueFor?, hv, hd, Field.datum?]
      | _ => cases hw
    | _ => cases hw
  | fontSize => cases hw
  | lineHeight => cases hw
  | textAlign => cases hw

end Property

/-! ## Text styles -/

/-- What an assignment to a text style writes to a part. -/
def TextAssignment.at? : TextAssignment → TextPart → Option Datum
  | .size x, .size => some (.factor x)
  | .lineHeight x, .lineHeight => some (.factor x)
  | .align k, .align => some (.keyword k)
  | _, _ => none

namespace TextStyle

variable {s : TextStyle} {a : Option TextAssignment} {part : TextPart} {d : Datum}

theorem same_kept (there x : Single) : (Datum.factor (kept there x)).Same (.factor x) := by
  unfold kept
  split
  case isTrue heq => exact .inr heq
  case isFalse => exact .inl rfl

/-- A part that an assignment writes holds what is written. -/
theorem get_assign?_of_some (h : a.bind (·.at? part) = some d) :
    ((s.assign? a).get part).Same d := by
  obtain ⟨a, rfl, hat⟩ := Option.bind_eq_some_iff.mp h
  show ((s.assign a).1.get part).Same d
  cases a with
  | size x =>
    rw [assign_size]
    cases part <;> cases hat
    exact same_kept _ _
  | lineHeight x =>
    rw [assign_lineHeight]
    cases part <;> cases hat
    exact same_kept _ _
  | align k =>
    rw [assign_align]
    cases part <;> cases hat
    exact Datum.Same.refl _

theorem get_assign?_of_none (h : a.bind (·.at? part) = none) :
    (s.assign? a).get part = s.get part := by
  cases a with
  | none => rfl
  | some a =>
    have hat : a.at? part = none := h
    show (s.assign a).1.get part = _
    cases a with
    | size x =>
      rw [assign_size]
      cases part <;> first | rfl | cases hat
    | lineHeight x =>
      rw [assign_lineHeight]
      cases part <;> first | rfl | cases hat
    | align k =>
      rw [assign_align]
      cases part <;> first | rfl | cases hat

theorem font_assign? (s : TextStyle) (a : Option TextAssignment) : (s.assign? a).font = s.font := by
  cases a with
  | none => rfl
  | some a =>
    show (s.assign a).1.font = s.font
    cases a with
    | size x => rw [assign_size]
    | lineHeight x => rw [assign_lineHeight]
    | align k => rw [assign_align]

end TextStyle

namespace Property

variable {fonts : Fonts} {initial : BoxStyle} {inherited : TextStyle} {p : Property}
  {values : List Value} {s : Styled} {part : Part} {d : Datum}

/-- What is assigned to a part of the text style is what the value that falls to it stands for. -/
theorem textAssignment?_at? (p : Property) (text : TextStyle) (values : List Value)
    (part : TextPart) :
    (p.textAssignment? fonts inherited text.font values).bind (·.at? part) =
      p.expansion? fonts inherited text values (.text part) := by
  cases values with
  | nil => cases part <;> cases p <;> rfl
  | cons v rest =>
    cases p with
    | fontSize => cases part <;> cases v <;> rfl
    | lineHeight => cases part <;> cases v <;> rfl
    | textAlign =>
      have hassigned : textAssignment? fonts inherited text.font textAlign (v :: rest) =
          (v.asKeyword? .textAlign).map .align := rfl
      rw [hassigned]
      cases part with
      | align =>
        show _ = (v.asKeyword? .textAlign).map Datum.keyword
        cases v.asKeyword? .textAlign <;> rfl
      | _ => cases v.asKeyword? .textAlign <;> rfl
    | _ => cases part <;> rfl

theorem textReset?_at? (p : Property) (inherited : TextStyle) (part : TextPart) :
    (p.textReset? inherited).bind (·.at? part) =
      if p = part.longhand then some (inherited.get part) else none := by
  cases part <;> cases p <;> rfl

/-! ## Ownership -/

/-- A part that the values of a property stand for something in holds just that. -/
theorem Admits.get_install_of_some (h : p.Admits values)
    (hd : p.expansion? fonts inherited s.text values part = some d) :
    ((p.install fonts inherited values s).get part).Same d := by
  cases part with
  | box f => exact BoxStyle.get_assignAll_of_some ((h.lastTo?_eq _ f).trans hd)
  | text part =>
    exact TextStyle.get_assign?_of_some ((textAssignment?_at? p s.text values part).trans hd)

theorem Admits.get_install_of_none (h : p.Admits values)
    (hnone : p.expansion? fonts inherited s.text values part = none) :
    (p.install fonts inherited values s).get part = s.get part := by
  cases part with
  | box f => exact BoxStyle.get_assignAll_of_none ((h.lastTo?_eq _ f).trans hnone)
  | text part =>
    exact TextStyle.get_assign?_of_none ((textAssignment?_at? p s.text values part).trans hnone)

/-- A removed property gives the parts that it owns their initial or inherited values. -/
theorem get_reset_of_owns (howns : p.owns part = true) :
    ((p.reset initial inherited s).get part).Same ((Styled.mk initial inherited).get part) := by
  cases part with
  | box f =>
    refine BoxStyle.get_assignAll_of_some ((lastTo?_resets p initial f).trans (if_pos ?_))
    exact howns
  | text part =>
    refine TextStyle.get_assign?_of_some ((textReset?_at? p inherited part).trans (if_pos ?_))
    exact of_decide_eq_true howns

theorem get_reset_of_not_owns (howns : p.owns part = false) :
    (p.reset initial inherited s).get part = s.get part := by
  cases part with
  | box f =>
    refine BoxStyle.get_assignAll_of_none ((lastTo?_resets p initial f).trans (if_neg ?_))
    exact ne_true_of_eq_false howns
  | text part =>
    refine TextStyle.get_assign?_of_none ((textReset?_at? p inherited part).trans (if_neg ?_))
    exact of_decide_eq_false howns

theorem valueFor?_text (p : Property) (values : List Value) (part : TextPart) :
    p.valueFor? values (.text part) = if p = part.longhand then values.head? else none := by
  cases p <;> rfl

/-- Values stand for something in no other parts than those that the property owns. -/
theorem owns_of_expansion? (hd : p.expansion? fonts inherited s.text values part = some d) :
    p.owns part = true := by
  obtain ⟨v, hv, -⟩ := Option.bind_eq_some_iff.mp hd
  cases part with
  | box f =>
    by_contra howns
    rw [valueFor?_of_not_writes (eq_false_of_ne_true howns)] at hv
    cases hv
  | text part =>
    rw [valueFor?_text] at hv
    exact decide_eq_true (Option.ite_none_right_eq_some.mp hv).1

/-- Whether the values are a single word of `flex-flow`, and a part is none that it is for. -/
def Spares (p : Property) (values : List Value) (part : Part) : Prop :=
  p = flexFlow ∧ ∃ (field : KeywordField) (k : Keyword field.enumeration),
    values = [.keyword k] ∧ part ≠ .box (.keyword field)

theorem Spares.expansion? (h : p.Spares values part) (fonts : Fonts) (inherited text : TextStyle) :
    p.expansion? fonts inherited text values part = none := by
  obtain ⟨rfl, field, k, rfl, hne⟩ := h
  cases part with
  | text part => cases part <;> rfl
  | box f =>
    cases f with
    | keyword field' =>
      cases field' with
      | flexDirection => cases field <;> first | rfl | exact absurd rfl hne
      | flexWrap => cases field <;> first | rfl | exact absurd rfl hne
      | _ => rfl
    | _ => rfl

/-- The values that a property takes stand for something in all parts that the property owns, but
for those that a single word spares. -/
theorem Admits.expands (h : p.Admits values) (howns : p.owns part = true)
    (hspares : ¬p.Spares values part) (fonts : Fonts) (inherited text : TextStyle) :
    ∃ d, p.expansion? fonts inherited text values part = some d := by
  cases part with
  | box f =>
    by_cases hflow : p = flexFlow
    · subst hflow
      have hword : ∀ (field : KeywordField) (k : Keyword field.enumeration),
          values = [.keyword k] → f = .keyword field := by
        intro field k hvalues
        by_contra hf
        exact hspares ⟨rfl, field, k, hvalues, fun heq => hf (Part.box.inj heq)⟩
      have hdatum : ∀ {e : Enumeration} (k : Keyword e),
          ((Value.keyword k).asKeyword? e).map Datum.keyword = some (.keyword k) := fun k =>
        congrArg (·.map Datum.keyword) (Value.asKeyword?_keyword k)
      rcases h.flexFlow_cases with ⟨k, rfl⟩ | ⟨k, rfl⟩ | ⟨k, k', rfl⟩
      · cases hword .flexDirection k rfl
        exact ⟨.keyword k, hdatum k⟩
      · cases hword .flexWrap k rfl
        exact ⟨.keyword k, hdatum k⟩
      · cases f with
        | keyword field =>
          cases field with
          | flexDirection => exact ⟨.keyword k, hdatum k⟩
          | flexWrap => exact ⟨.keyword k', hdatum k'⟩
          | _ => cases howns
        | _ => cases howns
    · obtain ⟨d, hd⟩ := h.covers hflow howns (text.metrics fonts)
      exact ⟨d, (h.lastTo?_eq _ f).symm.trans hd⟩
  | text part =>
    have hp : p = part.longhand := of_decide_eq_true howns
    subst hp
    cases part with
    | size =>
      obtain ⟨v, rfl, hv⟩ := h.eq_singleton rfl
      cases v with
      | length x unit => exact ⟨_, rfl⟩
      | percentage x => exact ⟨_, rfl⟩
      | _ => simp [Value.kind, lengthOrPercentage] at hv
    | lineHeight =>
      obtain ⟨v, rfl, hv⟩ := h.eq_singleton rfl
      obtain ⟨x, rfl⟩ := exists_number hv
      exact ⟨.factor x, rfl⟩
    | align =>
      obtain ⟨v, rfl, hv⟩ := h.eq_singleton rfl
      obtain ⟨k, hk⟩ := exists_keyword hv
      exact ⟨.keyword k, congrArg (·.map Datum.keyword) hk⟩

/-- A shorthand owns what its longhands own. -/
theorem owns_iff_longhands (h : p.longhands ≠ []) (part : Part) :
    p.owns part = true ↔ ∃ q ∈ p.longhands, q.owns part = true := by
  cases part with
  | text part =>
    cases p with
    | edges shorthand => cases part <;> simp [owns, TextPart.longhand, longhands, sides]
    | flex => cases part <;> decide
    | flexFlow => cases part <;> decide
    | gap => cases part <;> decide
    | _ => exact absurd rfl h
  | box f =>
    cases p with
    | edges shorthand =>
      cases f with
      | dimension field =>
        cases field with
        | edge box side =>
          cases side <;> simp [owns, writes, longhands, sides, Side.all]
        | _ => simp [owns, writes, longhands, sides]
      | _ => simp [owns, writes, longhands, sides]
    | flex =>
      cases f with
      | factor field => cases field <;> decide
      | dimension field => cases field <;> simp [owns, writes, longhands]
      | _ => simp [owns, writes, longhands]
    | flexFlow =>
      cases f with
      | keyword field => cases field <;> decide
      | _ => simp [owns, writes, longhands]
    | gap =>
      cases f with
      | dimension field => cases field <;> simp [owns, writes, longhands]
      | _ => simp [owns, writes, longhands]
    | _ => exact absurd rfl h

/-- No property spares all of its parts. -/
theorem Admits.exists_owns (h : p.Admits values) :
    ∃ part, p.owns part = true ∧ ¬p.Spares values part := by
  have hother : ∀ part, p ≠ flexFlow → p.owns part = true →
      ∃ part, p.owns part = true ∧ ¬p.Spares values part := fun part hflow howns =>
    ⟨part, howns, fun hspares => hflow hspares.1⟩
  cases p with
  | direction => exact hother (.box .direction) nofun rfl
  | keyword field => exact hother (.box (.keyword field)) nofun (decide_eq_true rfl)
  | factor field => exact hother (.box (.factor field)) nofun (decide_eq_true rfl)
  | aspectRatio => exact hother (.box .aspectRatio) nofun rfl
  | dimension field => exact hother (.box (.dimension field)) nofun (decide_eq_true rfl)
  | edges shorthand =>
    exact hother (.box (.dimension (.edge shorthand.box .top))) nofun (decide_eq_true rfl)
  | flex => exact hother (.box (.factor .flexGrow)) nofun rfl
  | gap => exact hother (.box (.dimension .rowGap)) nofun rfl
  | fontSize => exact hother (.text .size) nofun rfl
  | lineHeight => exact hother (.text .lineHeight) nofun rfl
  | textAlign => exact hother (.text .align) nofun rfl
  | flexFlow =>
    rcases h.flexFlow_cases with ⟨k, rfl⟩ | ⟨k, rfl⟩ | ⟨k, k', rfl⟩
    · refine ⟨.box (.keyword .flexDirection), rfl, ?_⟩
      rintro ⟨-, field, k', hvalues, hne⟩
      cases field <;> first | exact hne rfl | cases hvalues
    · refine ⟨.box (.keyword .flexWrap), rfl, ?_⟩
      rintro ⟨-, field, k', hvalues, hne⟩
      cases field <;> first | exact hne rfl | cases hvalues
    · refine ⟨.box (.keyword .flexDirection), rfl, ?_⟩
      rintro ⟨-, field, k'', hvalues, -⟩
      simp at hvalues

/-- A property does the same to the parts that it owns, whether by its values or by its removal. -/
structure KeepsToOwned (fonts : Fonts) (initial : BoxStyle) (inherited : TextStyle) (p : Property)
    (values : List Value) (s : Styled) : Prop where
  /-- The values stand for something in the parts that the property owns and no single word spares,
  and in no others. -/
  expands : ∀ part, (∃ d, p.expansion? fonts inherited s.text values part = some d) ↔
    p.owns part = true ∧ ¬p.Spares values part
  /-- No values are ignored. -/
  some_part : ∃ part d, p.expansion? fonts inherited s.text values part = some d
  install : ∀ part d, p.expansion? fonts inherited s.text values part = some d →
    ((p.install fonts inherited values s).get part).Same d
  install_rest : ∀ part, p.expansion? fonts inherited s.text values part = none →
    (p.install fonts inherited values s).get part = s.get part
  install_font : (p.install fonts inherited values s).text.font = s.text.font
  reset : ∀ part, p.owns part = true →
    ((p.reset initial inherited s).get part).Same ((Styled.mk initial inherited).get part)
  reset_rest : ∀ part, p.owns part = false →
    (p.reset initial inherited s).get part = s.get part
  reset_font : (p.reset initial inherited s).text.font = s.text.font
  /-- A shorthand owns what its longhands own. -/
  longhands : p.longhands ≠ [] → ∀ part,
    p.owns part = true ↔ ∃ q ∈ p.longhands, q.owns part = true

/-- **What is accepted, what is installed and what is reset agree.** Values that a property takes
are never ignored: each part that the property owns gets what they stand for there, except that one
word of `flex-flow` is for one part only. A removal puts the initial or inherited value back to each
of the parts. Neither touches any other part, or the font, and a shorthand owns what its longhands
own. A number that compares as equal to the one that is there is not written. -/
theorem keepsToOwned_of_accept? (fonts : Fonts) (initial : BoxStyle) (inherited : TextStyle)
    (p : Property) {arguments : List Raw} {values : List Value}
    (haccept : p.accept? arguments = some values) (s : Styled) :
    p.KeepsToOwned fonts initial inherited values s := by
  have h : p.Admits values := ⟨arguments, haccept⟩
  have hexpands : ∀ part, (∃ d, p.expansion? fonts inherited s.text values part = some d) ↔
      p.owns part = true ∧ ¬p.Spares values part := by
    intro part
    constructor
    · rintro ⟨d, hd⟩
      refine ⟨owns_of_expansion? hd, fun hspares => ?_⟩
      rw [hspares.expansion?] at hd
      cases hd
    · rintro ⟨howns, hspares⟩
      exact h.expands howns hspares fonts inherited s.text
  obtain ⟨part, howned⟩ := h.exists_owns
  exact ⟨hexpands, ⟨part, (hexpands part).mpr howned⟩,
    fun _ _ => h.get_install_of_some, fun _ => h.get_install_of_none, TextStyle.font_assign? _ _,
    fun _ => get_reset_of_owns, fun _ => get_reset_of_not_owns, TextStyle.font_assign? _ _,
    owns_iff_longhands⟩

/-- The basis of `flex` is measured with the font size of the node, and the shrink factor that is
not given is one. -/
theorem keepsToOwned_of_accept?_flex :
    let fonts : Fonts := .ofHost .default fun _ => .fixed 16
    let root := TextStyle.root .default .builtIn
    let s : Styled := ⟨.initial false, { root with size := 20 }⟩
    ∃ values, flex.accept? [.integer 3, .text "2em"] = some values ∧
      flex.KeepsToOwned fonts (.initial false) root values s ∧
      ((flex.install fonts root values s).get (.box (.dimension .flexBasis))).Same
        (.dimension (.points 40)) ∧
      ((flex.install fonts root values s).get (.box (.factor .flexShrink))).Same (.factor 1) := by
  intro fonts root s
  have haccept : flex.accept? [.integer 3, .text "2em"] =
      some [.number 3, .length 2 .em] := by
    decide +kernel
  have hkeeps := keepsToOwned_of_accept? fonts (.initial false) root flex haccept s
  refine ⟨_, haccept, hkeeps, hkeeps.install _ _ ?_, hkeeps.install _ _ ?_⟩
  · decide +kernel
  · decide +kernel

end Property

end FlexStyle
