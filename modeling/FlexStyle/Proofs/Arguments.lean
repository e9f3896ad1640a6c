import FlexStyle.Proofs.Value.Range
import FlexStyle.Proofs.Value.Text

/-!
# Arguments written as text

What a property takes, in whatever form it was given, the property takes again when the values are
written as text, and makes the same values of it. For that, no kind that is tried first may read the
text of another, and no two patterns may take equally many arguments.

- `Slot.Plain`, `Property.plain_slots`, `Property.nodup_lengths`: both hold of all properties.
- `Property.Admits.inRange`: values that a property takes are in range if their texts are read back.
- `Property.Admits.accept?_texts`: the values that a property makes of the texts.
- `Property.ofName?_name`: a property is found under its own name.
-/

namespace FlexStyle

/-! ## Slots and patterns -/

/-- Whether each kind of a slot refuses the texts of those that are tried after it. -/
def Slot.Plain (slot : Slot) : Prop :=
  slot.Pairwise fun kind kind' => kind.apart kind' = true

instance (slot : Slot) : Decidable slot.Plain := inferInstanceAs (Decidable (List.Pairwise _ _))

theorem Slot.read?_text {slot : Slot} (hplain : slot.Plain) {v : Value} (hkind : v.kind ∈ slot)
    (hback : v.ReadsBack) (hrange : v.inRange = true) : slot.read? (.text v.text) = some v := by
  have hown : Value.ofText? v.kind v.text = some v := Value.ofText?_text hback hrange
  -- the kinds in front of the own one refuse the text
  induction slot with
  | nil => cases hkind
  | cons kind rest ih =>
    rw [read?, List.findSome?_cons]
    rcases List.mem_cons.mp hkind with hhead | hrest
    · subst hhead
      rw [show (Raw.text v.text).toValue? v.kind = some v from hown]
    · have hrefused := Value.ofText?_of_apart hback ((List.pairwise_cons.mp hplain).1 _ hrest)
      rw [show (Raw.text v.text).toValue? kind = none from hrefused]
      exact ih (List.pairwise_cons.mp hplain).2 hrest

namespace Pattern

/-- Values that fit a pattern are read from their texts. -/
theorem read?_texts {pattern : Pattern} (hplain : ∀ slot ∈ pattern, slot.Plain)
    {values : List Value} (hfits : pattern.Fits values)
    (hvalues : ∀ v ∈ values, v.ReadsBack ∧ v.inRange = true) :
    pattern.read? (values.map fun v => .text v.text) = some values := by
  induction hfits with
  | nil => rfl
  | @cons slot v pattern values hkind hfits ih =>
    obtain ⟨hback, hrange⟩ := hvalues v List.mem_cons_self
    have hfirst := Slot.read?_text (hplain slot List.mem_cons_self) hkind hback hrange
    have hrest := ih (fun slot hmem => hplain slot (List.mem_cons_of_mem _ hmem))
      fun v hmem => hvalues v (List.mem_cons_of_mem _ hmem)
    rw [List.map_cons, read?, hfirst, hrest]
    rfl

theorem length_of_read? {pattern : Pattern} {arguments : List Raw} {values : List Value}
    (h : pattern.read? arguments = some values) : pattern.length = arguments.length :=
  (fits_read? h).length_eq.trans (toValue?_of_read? h).length_eq.symm

/-- Of patterns of different lengths, at most one reads the arguments. -/
theorem firstMatch?_of_mem {patterns : List Pattern} (hnd : (patterns.map List.length).Nodup)
    {pattern : Pattern} (hmem : pattern ∈ patterns) {arguments : List Raw} {values : List Value}
    (h : pattern.read? arguments = some values) :
    firstMatch? patterns arguments = some values := by
  induction patterns with
  | nil => cases hmem
  | cons first rest ih =>
    rw [List.map_cons, List.nodup_cons] at hnd
    rw [firstMatch?, List.findSome?_cons]
    rcases List.mem_cons.mp hmem with rfl | hrest
    · rw [h]
    · cases hfirst : first.read? arguments with
      | none => exact ih hnd.2 hrest
      | some other =>
        -- two patterns of one length
        refine absurd (List.mem_map.mpr ⟨pattern, hrest, ?_⟩) hnd.1
        rw [length_of_read? h, length_of_read? hfirst]

end Pattern

/-! ## Properties -/

namespace Property

variable {p : Property} {values : List Value}

theorem mem_all (p : Property) : p ∈ all := by
  cases p with
  | keyword field => cases field <;> decide
  | factor field => cases field <;> decide
  | dimension field =>
    cases field with
    | edge box side => cases box <;> cases side <;> decide
    | _ => decide
  | edges shorthand => cases shorthand <;> decide
  | _ => decide

theorem plain_slots (p : Property) :
    ∀ pattern ∈ p.patterns, ∀ slot ∈ pattern, Slot.Plain slot := by
  have hall : ∀ p ∈ all, ∀ pattern ∈ p.patterns, ∀ slot ∈ pattern, Slot.Plain slot := by
    decide
  exact hall p p.mem_all

/-- A property takes at most one pattern of each length. -/
theorem nodup_lengths (p : Property) : (p.patterns.map List.length).Nodup := by
  have hall : ∀ p ∈ all, (p.patterns.map List.length).Nodup := by decide
  exact hall p p.mem_all

/-- Values that a property takes, and whose numbers are finite, are in range. -/
theorem Admits.inRange (h : p.Admits values) (hback : ∀ v ∈ values, v.ReadsBack) :
    ∀ v ∈ values, v.inRange = true := by
  obtain ⟨arguments, haccept⟩ := h
  obtain ⟨pattern, -, hread⟩ := List.exists_of_findSome?_eq_some haccept
  intro v hv
  obtain ⟨raw, -, hvalue⟩ := exists_mem_of_forall₂ (Pattern.toValue?_of_read? hread) hv
  rw [Raw.inRange_toValue?_iff hvalue]
  rintro ⟨hratio, hoverflows⟩
  rw [hratio] at hvalue
  -- the quotient would be infinite
  rw [Raw.eq_infinite_of_overflows hvalue hoverflows] at hv
  exact absurd (hback _ hv).1 (by decide)

/-- **What a property takes, it takes again as text.** -/
theorem Admits.accept?_texts (h : p.Admits values) (hback : ∀ v ∈ values, v.ReadsBack) :
    p.accept? (values.map fun v => .text v.text) = some values := by
  obtain ⟨pattern, hpattern, hfits⟩ := h.fits
  have hread := Pattern.read?_texts (p.plain_slots pattern hpattern) hfits fun v hv =>
    ⟨hback v hv, h.inRange hback v hv⟩
  exact Pattern.firstMatch?_of_mem p.nodup_lengths hpattern hread

/-! ## Names -/

/-- Names are words in lower case. -/
theorem name_spec (p : Property) :
    Name.isWord p.name.toList = true ∧ ∀ c ∈ p.name.toList, c.isUpper = false := by
  have hall : ∀ p ∈ all, Name.isWord p.name.toList = true ∧
      p.name.toList.all (!·.isUpper) = true := by decide
  obtain ⟨hword, hlower⟩ := hall p p.mem_all
  exact ⟨hword, by simpa using hlower⟩

theorem lower_name (p : Property) : Text.lower p.name = p.name :=
  Text.lower_eq_self p.name_spec.2

theorem name_injective {q : Property} (h : q.name = p.name) : q = p := by
  have hnd : (all.map name).Nodup := by decide
  exact List.inj_on_of_nodup_map hnd q.mem_all p.mem_all h

/-- A property is found under its own name. -/
theorem ofName?_name (p : Property) : ofName? p.name = some p := by
  rw [ofName?]
  cases hfind : all.find? fun q => Text.sameIgnoringCase q.name p.name with
  | none => exact absurd (Text.sameIgnoringCase_self _) (List.find?_eq_none.mp hfind p p.mem_all)
  | some q =>
    have hsame := List.find?_some hfind
    rw [Text.sameIgnoringCase, lower_name, lower_name, decide_eq_true_eq] at hsame
    rw [name_injective hsame]

end Property

end FlexStyle
