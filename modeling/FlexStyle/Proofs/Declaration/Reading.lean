import FlexStyle.Proofs.Declaration

/-!
# How a text is read as declarations

A text is cut at its semicolons, and every item is read for itself: it gives one declaration or
none, whatever stands beside it. What is read is in canonical form, and it is read again from the
text that is made of it, so that reading gives exactly the lists of declarations in that form.

- `Declaration.Canonical`: the form of declarations that are read.
- `Declaration.list_text_iff`: reading what is written, for exactly the lists that are read.
- `Declaration.items`: the texts between semicolons.
- `Declaration.list_semicolon`: each item is read for itself.
-/

namespace FlexStyle.Declaration

/-! ## Canonical form -/

/-- A declaration with a name and a value, each without spaces at its ends, and the name in lower
case; neither has a semicolon, and the name has no colon. -/
structure Canonical (d : Declaration) : Prop where
  property_ne : d.property ≠ ""
  property_marks : ∀ c ∈ d.property.toList, c ≠ ':' ∧ c ≠ ';'
  property_upper : ∀ c ∈ d.property.toList, c.isUpper = false
  property_tight : Text.isTight Text.isSpace d.property.toList = true
  value_ne : d.value ≠ ""
  value_marks : ∀ c ∈ d.value.toList, c ≠ ';'
  value_tight : Text.isTight Text.isSpace d.value.toList = true

variable {d : Declaration} {source : String} {declarations : List Declaration}

theorem Canonical.wellFormed (h : d.Canonical) : d.WellFormed where
  property_ne := h.property_ne
  value_ne := h.value_ne
  property_marks := h.property_marks
  value_marks := h.value_marks
  property_trim := Text.trim_of_isTight h.property_tight
  value_trim := Text.trim_of_isTight h.value_tight
  property_lower := Text.lower_eq_self h.property_upper

/-- Lower case leaves a text without spaces at its ends. -/
theorem isTight_lower (text : List Char) :
    Text.isTight Text.isSpace (text.map Char.toLower) = Text.isTight Text.isSpace text := by
  rw [Text.isTight, List.head?_map, List.getLast?_map, Text.isTight]
  cases text.head? <;> cases text.getLast? <;> simp [Text.isSpace_toLower]

/-- A name that is trimmed and put into lower case, from characters without marks. -/
theorem toList_tidy_property (property value : List Char) :
    (tidy property value).property.toList =
      (Text.trim Text.isSpace property).map Char.toLower := by
  rw [tidy, Text.lower, String.toList_map, String.toList_ofList]

/-- What is read of an item is in canonical form. -/
theorem canonical_of_ofItem? {item : List Char} (hitem : ';' ∉ item) (h : ofItem? item = some d) :
    d.Canonical := by
  unfold ofItem? at h
  split at h
  · cases h
  · rename_i colon value hcut
    obtain ⟨hnonempty, heq⟩ := Option.ite_none_left_eq_some.mp h
    rw [Bool.or_eq_true, not_or] at hnonempty
    cases heq
    -- the characters of both parts come from the item, and the name ends before the first colon
    have hname : ∀ c ∈ Text.trim Text.isSpace (item.takeWhile (· != ':')), c ≠ ':' ∧ c ≠ ';' := by
      intro c hc
      have hmem := (Text.trim_sublist _ _).mem hc
      refine ⟨by simpa using List.mem_takeWhile_imp hmem, ?_⟩
      rintro rfl
      exact hitem ((List.takeWhile_sublist _).mem hmem)
    have hvalue : ∀ c ∈ Text.trim Text.isSpace value, c ≠ ';' := by
      rintro c hc rfl
      have hmem : ';' ∈ item.dropWhile (· != ':') := by
        rw [hcut]
        exact List.mem_cons_of_mem _ ((Text.trim_sublist _ _).mem hc)
      exact hitem ((List.dropWhile_sublist _).mem hmem)
    refine
      { property_ne := by simpa using hnonempty.1
        property_marks := ?_
        property_upper := ?_
        property_tight := ?_
        value_ne := by simpa using hnonempty.2
        value_marks := ?_
        value_tight := ?_ }
    · rw [toList_tidy_property]
      intro c hc
      obtain ⟨c, hmem, rfl⟩ := List.mem_map.mp hc
      rw [ne_eq, ne_eq, Text.toLower_eq_iff (by rfl), Text.toLower_eq_iff (by rfl)]
      exact hname c hmem
    · rw [toList_tidy_property]
      intro c hc
      obtain ⟨c, -, rfl⟩ := List.mem_map.mp hc
      exact Text.not_isUpper_toLower c
    · rw [toList_tidy_property, isTight_lower]
      exact Text.isTight_trim _ _
    · rw [tidy, String.toList_ofList]
      exact hvalue
    · rw [tidy, String.toList_ofList]
      exact Text.isTight_trim _ _

/-- Nothing that a text is cut into has the mark at which it is cut. -/
theorem notMem_of_mem_splitOn {text item : List Char} {mark : Char}
    (h : item ∈ text.splitOn mark) : mark ∉ item := by
  induction text generalizing item with
  | nil =>
    rw [List.splitOn_nil, List.mem_singleton] at h
    rw [h]
    exact List.not_mem_nil
  | cons c rest ih =>
    rw [List.splitOn_cons_eq_if_modifyHead] at h
    split at h
    case isTrue =>
      rcases List.mem_cons.mp h with rfl | hrest
      · exact List.not_mem_nil
      · exact ih hrest
    case isFalse hc =>
      -- the character belongs to the first item of the rest
      obtain ⟨first, others, hcut⟩ := List.exists_cons_of_ne_nil (List.splitOn_ne_nil mark rest)
      rw [hcut] at h ih
      rcases List.mem_cons.mp h with rfl | hother
      · rw [List.mem_cons, not_or]
        exact ⟨fun heq => hc (beq_iff_eq.mpr heq.symm), ih List.mem_cons_self⟩
      · exact ih (List.mem_cons_of_mem _ hother)

/-- What is read of a text is in canonical form. -/
theorem canonical_of_mem_list (h : d ∈ list source) : d.Canonical := by
  obtain ⟨item, hitem, hd⟩ := List.mem_filterMap.mp h
  exact canonical_of_ofItem? (notMem_of_mem_splitOn hitem) hd

/-- **Declarations in and out.** Everything that is read is in canonical form, and is read again
from the text that is made of it. The lists of declarations in canonical form are exactly those that
are read from some text, and exactly those that their own text gives back. -/
theorem list_text_iff (source : String) (declarations : List Declaration) :
    (∀ d ∈ list source, d.Canonical) ∧ list (text (list source)) = list source ∧
      (list (text declarations) = declarations ↔ ∀ d ∈ declarations, d.Canonical) ∧
      ((∃ source, list source = declarations) ↔ ∀ d ∈ declarations, d.Canonical) := by
  have hread : ∀ source, ∀ d ∈ list source, d.Canonical := fun _ _ => canonical_of_mem_list
  have hback : ∀ {declarations : List Declaration}, (∀ d ∈ declarations, d.Canonical) →
      list (text declarations) = declarations :=
    fun h => list_text fun d hd => (h d hd).wellFormed
  refine ⟨hread source, hback (hread source), ⟨fun h => ?_, hback⟩, ⟨?_, fun h => ⟨_, hback h⟩⟩⟩
  · rw [← h]
    exact hread _
  · rintro ⟨source, rfl⟩
    exact hread source

/-- Two items of five are declarations. -/
example : list "Margin: 1px 2px ; ; bogus; width:auto;x:" =
    [⟨"margin", "1px 2px"⟩, ⟨"width", "auto"⟩] := by decide +kernel

/-! ## Items -/

/-- The texts between the semicolons of a text. -/
def items (text : String) : List String := (text.toList.splitOn ';').map String.ofList

/-- A semicolon between two texts keeps them apart. -/
theorem list_append (a b : String) : list (a ++ ";" ++ b) = list a ++ list b := by
  have hmark : (a ++ ";" ++ b).toList = a.toList ++ ';' :: b.toList := by simp
  rw [list, hmark, List.splitOn_append_cons_self, List.filterMap_append]
  rfl

theorem list_intercalate (row : List String) :
    list (";".intercalate row) = row.flatMap list := by
  induction row with
  | nil => rfl
  | cons first rest ih =>
    cases rest with
    | nil => simp
    | cons next rest =>
      rw [String.intercalate_cons_cons, list_append, ih]
      rfl

theorem intercalate_items (text : String) : ";".intercalate (items text) = text := by
  refine String.toList_inj.mp ?_
  rw [String.toList_intercalate, items, List.map_map]
  have hitems : (text.toList.splitOn ';').map (String.toList ∘ String.ofList) =
      text.toList.splitOn ';' :=
    (List.map_congr_left fun item _ => String.toList_ofList).trans (List.map_id _)
  rw [hitems]
  exact List.intercalate_splitOn ';'

/-- A text without semicolons is a single item. -/
theorem list_of_notMem {text : String} (h : ';' ∉ text.toList) :
    list text = (ofItem? text.toList).toList := by
  rw [list, List.splitOn_eq_singleton h]
  cases hitem : ofItem? text.toList <;> simp [hitem]

theorem length_list_of_mem_items {text item : String} (h : item ∈ items text) :
    (list item).length ≤ 1 := by
  obtain ⟨row, hrow, rfl⟩ := List.mem_map.mp h
  rw [list_of_notMem (by rw [String.toList_ofList]; exact notMem_of_mem_splitOn hrow)]
  exact Option.length_toList_le

/-- **Items are read for themselves.** Two texts with a semicolon between them give what each of
them gives. So the declarations of a text are those of its items, in their order, each of which
gives one at the most; and whatever texts stand in a row, with semicolons between them, none of them
changes what the others give. -/
theorem list_semicolon (a b : String) (row : List String) :
    list (a ++ ";" ++ b) = list a ++ list b ∧
      list (";".intercalate row) = row.flatMap list ∧
      ";".intercalate (items a) = a ∧ list a = (items a).flatMap list ∧
      ∀ item ∈ items a, (list item).length ≤ 1 := by
  refine ⟨list_append a b, list_intercalate row, intercalate_items a, ?_, ?_⟩
  · rw [← list_intercalate, intercalate_items]
  · exact fun item => length_list_of_mem_items

end FlexStyle.Declaration
