import FlexStyle.Proofs.Value.Text

/-!
# Values in and out of text

A value in range is written so that it is read as itself. What may fail is the tokenizer: it adds
up the digits of a number in steps that are rounded. Percentages are spared, as they are read from
the text, and so are integers, whose digits come out exactly.

- `Value.readsBack_of_spells`: a text that spells the value it was made of.
- `Raw.toValue?_text_eq_iff`: when a value is read from its own text.
-/

namespace FlexStyle

/-- Where the text of a value spells that value, its digits are read back. -/
theorem Value.readsBack_of_spells {v : Value} (hrange : v.inRange = true)
    (h : Spells v.text.toList v) : v.ReadsBack := by
  cases h with
  | number tokens finite => exact ⟨finite, _, tokens⟩
  | width tokens finite sign => exact ⟨finite, _, tokens⟩
  | quotient tokens finite signs =>
    -- the quotient is written as one number, without a stroke
    obtain ⟨p, htext, -⟩ := Binary.exists_plain ((Bool.and_eq_true _ _).mp hrange).1
    rw [text, htext, Number.list_text] at tokens
    cases tokens
  | percentage tokens written finite sign => exact finite
  | pixels tokens finite sign =>
    -- a length is never written without its unit
    obtain ⟨p, htext, -⟩ := Binary.exists_plain finite
    rw [pixels, text, String.toList_append, htext, Token.list_of_next (Token.next_length p .px)]
      at tokens
    cases tokens
  | @length x name unit tokens same finite sign =>
    obtain ⟨p, htext, -⟩ := Binary.exists_plain finite
    rw [text, String.toList_append, htext, Token.list_of_next (Token.next_length p unit)] at tokens
    have hx : Number.tokenized p = x := (Token.dimension.inj (List.cons.inj tokens).1).1
    exact ⟨finite, (Number.readsBack_iff htext).mpr hx⟩
  | _ => trivial

/-- **A value in range is read from its own text**, as the very value that was written, exactly if
the tokenizer reads the digits of a number, ratio or length as that number. -/
theorem Raw.toValue?_text_eq_iff {v : Value} (hrange : v.inRange = true) :
    (Raw.text v.text).toValue? v.kind = some v ↔ v.ReadsBack := by
  refine ⟨fun h => ?_, fun h => Value.ofText?_text h hrange⟩
  exact v.readsBack_of_spells hrange (Value.ofText?_eq_some_iff.mp h).2

/-- A unit that begins like an exponent is not taken for one. -/
theorem Raw.toValue?_text_eq_em :
    (Raw.text "1.5em").toValue? .length = some (.length (.ofRatio 3 2) .em) := by
  have htext : (Value.length (.ofRatio 3 2) .em).text = "1.5em" := by decide +kernel
  have hback : (Value.length (.ofRatio 3 2) .em).ReadsBack :=
    ⟨by decide +kernel, Option.none, by decide +kernel⟩
  rw [← htext]
  exact (toValue?_text_eq_iff (by decide +kernel)).mpr hback

end FlexStyle
