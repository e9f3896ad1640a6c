import FlexStyle.Proofs.Token

/-!
# Numbers of style text as numerals

A number of style text is a numeral, so that two numbers can be made of it: the one that the
tokenizer sums up digit by digit, and the one that is nearest to what is written.

- `Number.Parts.nearest`: the number nearest to what is written.
- `Number.exists_numeral`: a number of style text is a numeral, and is read as the nearest number.
-/

namespace FlexStyle

namespace Number

open Numeral (splitSign)

/-- The exponent that is written. As in all numerals, one beyond all digits and beyond the exponents
of the format is cut off. -/
def Parts.power (parts : Parts) (f : Format) : Int :=
  match parts.exponent with
  | none => 0
  | some (negative, digits) =>
    let bound := (parts.whole ++ parts.fraction).length + Nat.pow 2 f.exponentBits
    let size := min (Numeral.natural digits) bound
    if negative then -size else size

/-- The value of a number as it is written, without its sign. -/
def Parts.decimal (parts : Parts) (f : Format) : Decimal :=
  ⟨Numeral.natural (parts.whole ++ parts.fraction), parts.power f - parts.fraction.length⟩

/-- The number nearest to what is written. -/
def Parts.nearest (parts : Parts) (f : Format) : Binary f :=
  (parts.decimal f).toBinary f parts.negative

/-! ## Cutting a number into its parts -/

variable {text rest digits fraction : List Char} {negative : Bool}

/-- A sign stands in front of what is left, and in front of all that starts like it. -/
theorem splitSign_spec (text : List Char) :
    ∃ sign, text = sign ++ (splitSign text).2 ∧
      ∀ c more, c ≠ '-' → c ≠ '+' →
        splitSign (sign ++ c :: more) = ((splitSign text).1, c :: more) := by
  unfold splitSign
  split
  · exact ⟨['-'], rfl, fun _ _ _ _ => rfl⟩
  · exact ⟨['+'], rfl, fun _ _ _ _ => rfl⟩
  · refine ⟨[], rfl, fun c more hminus hplus => ?_⟩
    simp [hminus, hplus]

/-- The digits after a point, with the point, are what a fraction takes away. -/
theorem readFraction_spec (h : readFraction text = (fraction, rest)) :
    text = (if fraction.isEmpty then [] else '.' :: fraction) ++ rest ∧
      ∀ c ∈ fraction, c.isDigit = true := by
  unfold readFraction at h
  split at h
  · rename_i after
    split at h
    · rename_i hhead
      cases h
      constructor
      · cases after with
        | nil => cases hhead
        | cons c tail =>
          have hdigit : c.isDigit = true := hhead
          rw [List.takeWhile_cons_of_pos hdigit]
          simp [hdigit, List.takeWhile_append_dropWhile]
      · exact fun c hc => List.mem_takeWhile_imp hc
    · cases h
      exact ⟨rfl, by simp⟩
  · cases h
    exact ⟨rfl, by simp⟩

/-- An exponent starts with its mark, and is read from what it takes away. -/
theorem readExponent?_spec (h : readExponent? text = some ((negative, digits), rest)) :
    ∃ mark after, text = mark :: after ++ rest ∧ (mark = 'e' ∨ mark = 'E') ∧
      ∀ bound, Numeral.exponent? bound (mark :: after) =
        let size := min (Numeral.natural digits) bound
        some (if negative then -size else size : Int) := by
  cases text with
  | nil => cases h
  | cons mark tail =>
    obtain ⟨sign, htail, hsign⟩ := splitSign_spec tail
    rw [readExponent?] at h
    rcases hsplit : splitSign tail with ⟨negative', body⟩
    rw [hsplit] at h htail hsign
    obtain ⟨hcond, heq⟩ := Option.ite_none_right_eq_some.mp h
    cases heq
    simp only [Bool.and_eq_true, Bool.or_eq_true, decide_eq_true_eq] at hcond
    obtain ⟨hmark, hdigit⟩ := hcond
    refine ⟨mark, sign ++ body.takeWhile Char.isDigit, ?_, hmark, fun bound => ?_⟩
    · rw [List.cons_append, List.append_assoc, List.takeWhile_append_dropWhile]
      exact congrArg _ htail
    · -- the digits start with one, and so with no sign
      cases body with
      | nil => cases hdigit
      | cons c more =>
        have hc : c.isDigit = true := hdigit
        have hplain : c ≠ '-' ∧ c ≠ '+' := by
          constructor <;> rintro rfl <;> cases hc
        rw [Numeral.exponent?, List.takeWhile_cons_of_pos hc, hsign c _ hplain.1 hplain.2]
        simp [hmark, hc]

/-- A number has a digit before the point or after it. -/
theorem digits_ne_nil (h : startsDigits text = true) :
    text.takeWhile Char.isDigit ++ (readFraction (text.dropWhile Char.isDigit)).1 ≠ [] := by
  unfold startsDigits at h
  split at h
  · rename_i after
    have hpoint : ('.' :: after).dropWhile Char.isDigit = '.' :: after :=
      List.dropWhile_cons_of_neg (by decide)
    rw [hpoint, readFraction, if_pos h]
    cases after with
    | nil => cases h
    | cons c more =>
      have hc : c.isDigit = true := h
      simp [hc]
  · rw [List.takeWhile_cons_of_pos h]
    simp
  · cases h

/-- A number without its sign is put together from its parts and an exponent, if it has one. -/
theorem readParts_spec {parts : Parts} {body : List Char}
    (hsplit : splitSign text = (negative, body)) (h : readParts text = (parts, rest)) :
    parts.negative = negative ∧ (∀ c ∈ parts.whole, c.isDigit = true) ∧
      (∀ c ∈ parts.fraction, c.isDigit = true) ∧
      (startsDigits body = true → parts.whole ++ parts.fraction ≠ []) ∧
      ∃ tail,
        body = parts.whole ++ (if parts.fraction.isEmpty then [] else '.' :: parts.fraction) ++
          tail ++ rest ∧
        tail.head?.all (fun c => !c.isDigit && c != '.') = true ∧
        ∀ f : Format,
          Numeral.exponent?
            ((parts.whole ++ parts.fraction).length + Nat.pow 2 f.exponentBits) tail =
              some (parts.power f) := by
  rw [readParts, hsplit] at h
  dsimp only at h
  rcases hread : readFraction (body.dropWhile Char.isDigit) with ⟨fraction, after⟩
  rw [hread] at h
  dsimp only at h
  obtain ⟨hafter, hfraction⟩ := readFraction_spec hread
  have hwhole : ∀ c ∈ body.takeWhile Char.isDigit, c.isDigit = true :=
    fun c hc => List.mem_takeWhile_imp hc
  have hne : startsDigits body = true → body.takeWhile Char.isDigit ++ fraction ≠ [] := by
    intro hstarts
    have hdigits := digits_ne_nil hstarts
    rwa [hread] at hdigits
  have hbody : body = body.takeWhile Char.isDigit ++
      (if fraction.isEmpty then [] else '.' :: fraction) ++ after := by
    rw [List.append_assoc, ← hafter, List.takeWhile_append_dropWhile]
  split at h
  · rename_i exponent rest' hexponent
    cases h
    obtain ⟨mark, digits, rfl, hmark, hvalue⟩ := readExponent?_spec hexponent
    refine ⟨rfl, hwhole, hfraction, hne, mark :: digits, ?_, ?_, fun f => hvalue _⟩
    · rwa [List.append_assoc]
    · rcases hmark with rfl | rfl <;> rfl
  · cases h
    refine ⟨rfl, hwhole, hfraction, hne, [], ?_, rfl, fun f => rfl⟩
    rwa [List.append_nil]

/-! ## Numbers as numerals -/

/-- No word for a number starts with anything but a letter. -/
theorem lower_ne_of_head {c : Char} (hc : c.isAlpha = false) (more : List Char) {word : String}
    (h : word.toList.head?.any (·.isAlpha) = true) :
    Text.lower (String.ofList (c :: more)) ≠ word := by
  rintro rfl
  have hlower : c.toLower = c := (Text.toLower_eq_iff hc).mpr rfl
  simp [Text.lower, String.toList_map, hlower, hc] at h

/-- What starts like digits is read as digits. -/
theorem read?_of_splitSign {f : Format} {c : Char} {more : List Char}
    (hsign : splitSign text = (negative, c :: more)) (hc : c.isAlpha = false) :
    Numeral.read? f text =
      (Numeral.decimal? f (c :: more)).map (Decimal.toBinary f negative) := by
  unfold Numeral.read?
  simp only [hsign]
  rw [if_neg, if_neg]
  · exact lower_ne_of_head hc more (by decide)
  · simp only [Bool.or_eq_true, decide_eq_true_eq, not_or]
    exact ⟨lower_ne_of_head hc more (by decide), lower_ne_of_head hc more (by decide)⟩

/-- A number without its sign starts with a digit or a point. -/
theorem exists_head {whole : List Char} (hwhole : ∀ c ∈ whole, c.isDigit = true)
    (hne : whole ++ fraction ≠ []) (tail : List Char) :
    ∃ c more, whole ++ (if fraction.isEmpty then [] else '.' :: fraction) ++ tail = c :: more ∧
      c.isAlpha = false ∧ c ≠ '-' ∧ c ≠ '+' := by
  cases whole with
  | nil =>
    obtain ⟨first, others, rfl⟩ := List.exists_cons_of_ne_nil hne
    exact ⟨'.', first :: others ++ tail, rfl, by decide⟩
  | cons c more =>
    have hc := hwhole c List.mem_cons_self
    refine ⟨c, _, rfl, ?_, ?_, ?_⟩
    · by_contra halpha
      rw [Text.not_isDigit_of_isAlpha (by simpa using halpha)] at hc
      cases hc
    · rintro rfl
      cases hc
    · rintro rfl
      cases hc

/-- Nothing but digits, a point, a sign or a letter starts a numeral. -/
theorem read?_slash (f : Format) (more : List Char) : Numeral.read? f ('/' :: more) = none := by
  have hsign : splitSign ('/' :: more) = (false, '/' :: more) := rfl
  rw [read?_of_splitSign hsign rfl, Option.map_eq_none_iff]
  unfold Numeral.decimal?
  simp

/-- **A number of style text is a numeral**, and is read as the number nearest to what is
written. -/
theorem exists_numeral {parts : Parts} (hstarts : starts text = true)
    (h : readParts text = (parts, rest)) :
    ∃ numeral, text = numeral ++ rest ∧
      ∀ f, Numeral.read? f numeral = some (parts.nearest f) := by
  obtain ⟨sign, htext, hsign⟩ := splitSign_spec text
  rcases hsplit : splitSign text with ⟨negative, body⟩
  obtain ⟨rfl, hwhole, hfraction, hne, tail, hbody, htail, hpower⟩ := readParts_spec hsplit h
  rw [starts, hsplit] at hstarts
  rw [hsplit] at htext hsign
  dsimp only at htext hsign
  refine ⟨sign ++ (parts.whole ++
    (if parts.fraction.isEmpty then [] else '.' :: parts.fraction) ++ tail), ?_, fun f => ?_⟩
  · rw [htext, hbody]
    simp only [List.append_assoc]
  · obtain ⟨c, more, hcut, halpha, hminus, hplus⟩ := exists_head hwhole (hne hstarts) tail
    have hread := Numeral.decimal?_digits f hwhole hfraction (hne hstarts) htail (hpower f)
    rw [hcut] at hread ⊢
    rw [read?_of_splitSign (hsign c more hminus hplus) halpha, hread]
    rfl

end Number

end FlexStyle
