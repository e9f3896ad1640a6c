import FlexStyle.Declaration
import FlexStyle.Proofs.Text

/-!
# Declarations read back from their text

- `Declaration.WellFormed`: declarations without marks and blanks in the wrong places.
- `Declaration.list_text`: well formed declarations are read back from the text that is made of
  them.
-/

namespace FlexStyle.Declaration

/-- A declaration whose text is cut up again where it was put together. -/
structure WellFormed (d : Declaration) : Prop where
  property_ne : d.property ≠ ""
  value_ne : d.value ≠ ""
  /-- The first colon and the first semicolon stand behind the name. -/
  property_marks : ∀ c ∈ d.property.toList, c ≠ ':' ∧ c ≠ ';'
  value_marks : ∀ c ∈ d.value.toList, c ≠ ';'
  /-- Nothing is trimmed away. -/
  property_trim : Text.trim Text.isSpace d.property.toList = d.property.toList
  value_trim : Text.trim Text.isSpace d.value.toList = d.value.toList
  property_lower : Text.lower d.property = d.property

/-- A declaration without the semicolon that ends it. -/
def body (d : Declaration) : List Char := d.property.toList ++ ':' :: ' ' :: d.value.toList

theorem toList_item (d : Declaration) : d.item.toList = d.body ++ [';'] := by
  simp [item, body]

namespace WellFormed

variable {d : Declaration}

theorem notMem_body (h : d.WellFormed) : ';' ∉ d.body := by
  intro hmem
  rw [body, List.mem_append, List.mem_cons, List.mem_cons] at hmem
  rcases hmem with hmem | hmem | hmem | hmem
  · exact (h.property_marks _ hmem).2 rfl
  · cases hmem
  · cases hmem
  · exact h.value_marks _ hmem rfl

/-- Spaces in front of a declaration do not change how it is read. -/
theorem ofItem?_body (h : d.WellFormed) {lead : List Char}
    (hlead : ∀ c ∈ lead, Text.isSpace c = true) : ofItem? (lead ++ d.body) = some d := by
  have hname : ∀ c ∈ lead ++ d.property.toList, (c != ':') = true := by
    intro c hc
    rcases List.mem_append.mp hc with hc | hc
    · have := hlead c hc
      rw [bne_iff_ne]
      rintro rfl
      cases this
    · exact bne_iff_ne.mpr (h.property_marks c hc).1
  have hproperty : Text.trim Text.isSpace (lead ++ d.property.toList) = d.property.toList :=
    (Text.trim_append_left lead _ hlead).trans h.property_trim
  have hvalue : Text.trim Text.isSpace (' ' :: d.value.toList) = d.value.toList :=
    (Text.trim_append_left [' '] _ (List.forall_mem_singleton.mpr rfl)).trans h.value_trim
  rw [body, ← List.append_assoc, ofItem?, List.dropWhile_append_of_pos hname,
    List.takeWhile_append_of_pos hname, List.dropWhile_cons_of_neg (by decide),
    List.takeWhile_cons_of_neg (by decide), List.append_nil]
  simp [tidy, hproperty, hvalue, h.property_lower, h.property_ne, h.value_ne]

end WellFormed

/-- The text of declarations as characters. -/
theorem toList_text_cons (d : Declaration) (rest : List Declaration) :
    (text (d :: rest)).toList =
      d.body ++ ';' :: if rest.isEmpty then [] else ' ' :: (text rest).toList := by
  cases rest with
  | nil => simp [text, toList_item]
  | cons next rest => simp [text, toList_item, String.intercalate_cons_cons]

/-- The items of a text, with spaces in front of it, are its declarations and what is left behind
the last semicolon. -/
theorem filterMap_ofItem?_text {declarations : List Declaration}
    (h : ∀ d ∈ declarations, d.WellFormed) (lead : List Char)
    (hlead : ∀ c ∈ lead, Text.isSpace c = true) :
    ((lead ++ (text declarations).toList).splitOn ';').filterMap ofItem? = declarations := by
  have hmark : ';' ∉ lead := fun hmem => absurd (hlead _ hmem) (by decide)
  -- `lead` changes: every declaration but the first one has a space in front of it
  induction declarations generalizing lead with
  | nil =>
    have hnone : ofItem? lead = none := by
      rw [ofItem?, List.dropWhile_eq_nil_iff.mpr]
      intro c hc
      rw [bne_iff_ne]
      rintro rfl
      exact absurd (hlead _ hc) (by decide)
    simp [text, List.splitOn_eq_singleton hmark, hnone]
  | cons d rest ih =>
    have hd := h d List.mem_cons_self
    rw [toList_text_cons, ← List.append_assoc, List.splitOn_append_cons_self_of_not_mem,
      List.filterMap_cons_some (hd.ofItem?_body hlead)]
    · refine congrArg _ ?_
      cases rest with
      | nil => rfl
      | cons next rest =>
        exact ih (fun d hmem => h d (List.mem_cons_of_mem _ hmem)) [' ']
          (List.forall_mem_singleton.mpr rfl) (by decide)
    · simp [hmark, hd.notMem_body]

/-- Well formed declarations are read back from their text. -/
theorem list_text {declarations : List Declaration} (h : ∀ d ∈ declarations, d.WellFormed) :
    list (text declarations) = declarations :=
  filterMap_ofItem?_text h [] (by simp)

end FlexStyle.Declaration
