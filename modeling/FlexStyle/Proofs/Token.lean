import FlexStyle.Proofs.Binary.Whole
import FlexStyle.Proofs.Decimal
import FlexStyle.Token.Lexer

/-!
# Tokens of written numbers and words

A number in the plain notation is one token, whatever unit follows it, and so is a word of letters
and hyphens, and a hash with hexadecimal digits. The digits of an integer are added up exactly.

- `Number.Ends`: what may follow a number without becoming part of it.
- `Number.readParts_text`: the parts of a number that is followed by such a text.
- `Number.integer?_ofInt`: the integer that is read from the digits of one.
- `Token.scan_of_starts`: where a number starts, it is the token.
- `Token.next_number`, `Token.next_percentage`, `Token.next_dimension`: the tokens of a number.
- `Token.next_word`, `Token.next_hash`: those of a word and of a hash.
-/

namespace FlexStyle

open Numeral (Plain)

namespace Name

/-- Whether a name consists of letters, and of hyphens that do not stand at its front. -/
def isWord : List Char → Bool
  | c :: rest => c.isAlpha && rest.all fun c => c.isAlpha || c = '-'
  | [] => false

theorem isPart_of_isAlpha {c : Char} (h : c.isAlpha = true) : isPart c = true := by
  simp [isPart, isStart, h]

theorem read_of_forall {name : List Char} (h : ∀ c ∈ name, isPart c = true ∧ c ≠ '\x00') :
    read name = (name, []) := by
  induction name with
  | nil => rw [read]
  | cons c rest ih =>
    obtain ⟨hpart, hne⟩ := h c List.mem_cons_self
    rw [read, if_pos hpart, ih fun d hd => h d (List.mem_cons_of_mem _ hd), if_neg hne]

theorem isAlpha_or_of_isWord {name : List Char} (h : isWord name = true) :
    ∀ c ∈ name, c.isAlpha = true ∨ c = '-' := by
  cases name with
  | nil => cases h
  | cons first rest =>
    simp only [isWord, Bool.and_eq_true, List.all_eq_true, Bool.or_eq_true,
      decide_eq_true_eq] at h
    intro c hc
    rcases List.mem_cons.mp hc with rfl | hc
    · exact .inl h.1
    · exact h.2 c hc

/-- A word is read as a name to its end. -/
theorem read_word {name : List Char} (h : isWord name = true) : read name = (name, []) := by
  refine read_of_forall fun c hc => ?_
  rcases isAlpha_or_of_isWord h c hc with hc | rfl
  · refine ⟨isPart_of_isAlpha hc, ?_⟩
    rintro rfl
    cases hc
  · decide

theorem isDigit_or_of_isHexDigit {c : Char} (h : isHexDigit c = true) :
    c.isDigit = true ∨ c.isAlpha = true := by
  simp only [isHexDigit, Bool.or_eq_true, Bool.and_eq_true, decide_eq_true_eq, Char.le_def,
    UInt32.le_iff_toNat_le] at h
  rw [Text.isAlpha_iff]
  rcases h with (h | h) | h
  · exact .inl h
  · exact .inr (.inr ⟨h.1, Nat.le_trans h.2 (by decide)⟩)
  · exact .inr (.inl ⟨h.1, Nat.le_trans h.2 (by decide)⟩)

theorem isPart_of_isHexDigit {c : Char} (h : isHexDigit c = true) :
    isPart c = true ∧ c ≠ '\x00' := by
  rcases isDigit_or_of_isHexDigit h with hdigit | halpha
  · refine ⟨by simp [isPart, hdigit], ?_⟩
    rintro rfl
    cases hdigit
  · refine ⟨isPart_of_isAlpha halpha, ?_⟩
    rintro rfl
    cases halpha

end Name

namespace Number

/-- Whether a text that follows a number does not become part of it. -/
def Ends (rest : List Char) : Prop :=
  rest.head?.all (fun c => !c.isDigit && c != '.') = true ∧ readExponent? rest = none

instance (rest : List Char) : Decidable (Ends rest) :=
  inferInstanceAs (Decidable (_ ∧ _))

/-- The parts of a number in the plain notation. -/
def ofPlain (p : Plain) : Parts := ⟨p.negative, p.whole, p.fraction, none⟩

theorem starts_text (p : Plain) (rest : List Char) : starts (p.text ++ rest) = true := by
  obtain ⟨c, tail, hmagnitude, hdigit⟩ := p.exists_magnitude
  rw [starts, p.splitSign_text, hmagnitude, List.cons_append]
  unfold startsDigits
  split
  · rename_i heq
    cases heq
    cases hdigit
  · rename_i heq
    cases heq
    exact hdigit
  · contradiction

/-- The digits after the point are all that is left of a number. -/
theorem readFraction_text {fraction rest : List Char}
    (hdigits : ∀ c ∈ fraction, c.isDigit = true)
    (hrest : rest.head?.all (fun c => !c.isDigit && c != '.') = true) :
    readFraction ((if fraction.isEmpty then [] else '.' :: fraction) ++ rest) =
      (fraction, rest) := by
  cases fraction with
  | nil =>
    unfold readFraction
    split
    · rename_i heq
      rw [show rest = _ from heq] at hrest
      cases hrest
    · rfl
  | cons first tail =>
    obtain ⟨htake, hdrop⟩ := Numeral.takeWhile_digits hdigits rest (by
      cases rest with
      | nil => rfl
      | cons c rest => simp_all)
    have hfirst := hdigits first List.mem_cons_self
    rw [List.cons_append] at htake hdrop
    simp only [List.isEmpty_cons, Bool.false_eq_true, if_false, List.cons_append, readFraction,
      List.head?_cons, Option.any_some, hfirst, if_true, htake, hdrop]

/-- A number ends where something else follows it. -/
theorem readParts_text (p : Plain) (rest : List Char) (h : Ends rest) :
    readParts (p.text ++ rest) = (ofPlain p, rest) := by
  obtain ⟨hhead, hexponent⟩ := h
  obtain ⟨htake, hdrop⟩ := Numeral.takeWhile_digits p.whole_digits
    ((if p.fraction.isEmpty then [] else '.' :: p.fraction) ++ rest) (by
      cases p.fraction with
      | nil => cases rest <;> simp_all
      | cons first tail => rfl)
  rw [readParts, p.splitSign_text, Plain.magnitude, List.append_assoc]
  simp only [htake, hdrop, readFraction_text p.fraction_digits hhead, hexponent]
  rfl

/-- The number that the tokenizer makes of a number in the plain notation. -/
def tokenized (p : Plain) : Single := (ofPlain p).value.convert .single

theorem read_number (p : Plain) :
    read p.text = (.number (tokenized p) (ofPlain p).integer?, []) := by
  have hparts := readParts_text p [] (by decide)
  rw [List.append_nil] at hparts
  unfold read
  simp only [hparts]
  rfl

theorem read_percentage (p : Plain) :
    ∃ fraction, read (p.text ++ ['%']) = (.percentage fraction, []) := by
  have hparts := readParts_text p ['%'] (by decide)
  refine ⟨((ofPlain p).value / 100).convert .single, ?_⟩
  unfold read
  simp only [hparts]

/-- A unit that is written behind a number makes a dimension of it. -/
theorem read_dimension (p : Plain) {unit : List Char} (h : Ends unit)
    (hstarts : Name.starts unit = true) (hread : Name.read unit = (unit, [])) :
    read (p.text ++ unit) = (.dimension (tokenized p) (String.ofList unit), []) := by
  have hparts := readParts_text p unit h
  unfold read
  simp only [hparts]
  split
  · -- no name starts with a percent sign
    cases hstarts
  · rw [if_pos hstarts, hread]
    rfl

/-! ## Integers -/

/-- The digits before the point are added up exactly, as long as they do not come to too much. -/
theorem foldl_digits (digits : List Char) (a : Nat) (h : Nat.ofDigitChars 10 digits a < 2 ^ 53) :
    digits.foldl (fun sum c => sum * 10 + digit c) (Binary.ofRatio a 1) =
      Binary.ofRatio (Nat.ofDigitChars 10 digits a) 1 := by
  induction digits generalizing a with
  | nil => rfl
  | cons c rest ih =>
    rw [Nat.ofDigitChars_cons] at h ⊢
    -- the sums grow, so that none of them is too large if the last one is not
    have hle : 10 * a + (c.toNat - '0'.toNat) < 2 ^ 53 := by
      rw [Nat.ofDigitChars_eq_ofDigitChars_zero] at h
      have := Nat.le_mul_of_pos_left (10 * a + (c.toNat - '0'.toNat))
        (Nat.pow_pos (n := rest.length) (a := 10) (by decide))
      omega
    have hten : (10 : Double) = Binary.ofRatio 10 1 := rfl
    rw [List.foldl_cons, hten, digit, Binary.mul_ofRatio (Binary.exact_double (by omega))
      (Binary.exact_double (by decide)), Binary.add_ofRatio (Binary.exact_double (by omega))
      (Binary.exact_double (by omega)), Nat.mul_comm a]
    exact ih _ h

theorem wholeSum_eq {digits : List Char} (h : Numeral.natural digits < 2 ^ 53) :
    wholeSum digits = Binary.ofRatio (Numeral.natural digits) 1 :=
  foldl_digits digits 0 h

/-- The value of an integer is that integer. -/
theorem truncate_ofInt {n : Int} (h : n.natAbs < 2 ^ 53) :
    (ofPlain (.ofInt n)).value.truncate = n := by
  have hnatural : Numeral.natural (Nat.toDigits 10 n.natAbs) = n.natAbs :=
    Numeral.natural_toDigits _
  have hsum : wholeSum (Nat.toDigits 10 n.natAbs) + fractionSum [] =
      Binary.ofRatio n.natAbs 1 := by
    rw [wholeSum_eq (by rwa [hnatural]), hnatural]
    exact Binary.add_ofRatio (Binary.exact_double h) (Binary.exact_double (by decide))
  have hexact := Binary.truncate_ofRatio (Binary.exact_double h)
  simp only [ofPlain, Plain.ofInt, Parts.value, hsum]
  split
  case isTrue hneg =>
    have hlt : n < 0 := of_decide_eq_true hneg
    rw [Binary.truncate_neg, hexact]
    omega
  case isFalse hneg =>
    have hle : ¬ n < 0 := by simpa using hneg
    rw [hexact]
    omega

/-- An integer of 32 bits is within the bounds at which integers are cut off. -/
theorem integer?_ofInt (n : Int32) : (ofPlain (.ofInt n.toInt)).integer? = some n := by
  have hsize : n.toInt.natAbs < 2 ^ 53 := by
    have := n.le_toInt
    have := n.toInt_lt
    omega
  rw [Parts.integer?, truncate_ofInt hsize, Int32.ofIntClamp_toInt]
  rfl

end Number

namespace Token

/-- A token that is not blank is the next one. -/
theorem next_of_scan {text rest : List Char} {token : Token} (h : scan text = some (token, rest))
    (hblank : token ≠ .blank) : next text = some (token, rest) := by
  rw [next]
  split
  · rename_i hnone
    rw [h] at hnone
    cases hnone
  · rename_i hsome
    rw [h] at hsome
    cases hsome
    contradiction
  · rename_i hsome
    rw [h] at hsome
    cases hsome
    rfl

/-- Where a number starts, it is the token. -/
theorem scan_of_starts {text : List Char} (h : Number.starts text = true) :
    scan text = some (Number.read text) := by
  cases text with
  | nil => cases h
  | cons c rest =>
    -- none of the tokens that are tried before numbers starts like one
    have hne : ∀ d : Char, d ∉ ['-', '+', '.'] → d.isDigit = false → c ≠ d := by
      rintro d hmark hdigit rfl
      simp only [List.mem_cons, List.not_mem_nil, or_false, not_or] at hmark
      simp [Number.starts, Numeral.splitSign, Number.startsDigits, hmark, hdigit] at h
    rw [scan, scanFrom, if_neg, if_neg, if_neg, if_pos h]
    · simp [Extent.isQuote, hne]
    · simp [hne]
    · simp [Text.isSpace, Text.isNewline, hne]

theorem scan_number (p : Plain) (rest : List Char) :
    scan (p.text ++ rest) = some (Number.read (p.text ++ rest)) :=
  scan_of_starts (Number.starts_text p rest)

theorem next_number (p : Plain) :
    next p.text = some (.number (Number.tokenized p) (Number.ofPlain p).integer?, []) := by
  have hscan := scan_number p []
  rw [List.append_nil, Number.read_number] at hscan
  exact next_of_scan hscan (by simp)

theorem next_percentage (p : Plain) :
    ∃ fraction, next (p.text ++ ['%']) = some (.percentage fraction, []) := by
  obtain ⟨fraction, hread⟩ := Number.read_percentage p
  have hscan := scan_number p ['%']
  rw [hread] at hscan
  exact ⟨fraction, next_of_scan hscan (by simp)⟩

theorem next_dimension (p : Plain) {unit : List Char} (h : Number.Ends unit)
    (hstarts : Name.starts unit = true) (hread : Name.read unit = (unit, [])) :
    next (p.text ++ unit) =
      some (.dimension (Number.tokenized p) (String.ofList unit), []) := by
  have hscan := scan_number p unit
  rw [Number.read_dimension p h hstarts hread] at hscan
  exact next_of_scan hscan (by simp)

/-- No symbol starts with a letter. -/
theorem symbol?_of_isAlpha {c : Char} (h : c.isAlpha = true) (rest : List Char) :
    symbol? (c :: rest) = none := by
  have hsymbols : ∀ mark ∈ symbols, mark.toList.head?.any (!·.isAlpha) = true := by decide
  rw [symbol?, List.find?_eq_none]
  intro mark hmark hprefix
  have hfirst := hsymbols mark hmark
  cases hmark : mark.toList with
  | nil =>
    rw [hmark] at hfirst
    cases hfirst
  | cons d tail =>
    rw [hmark] at hfirst hprefix
    rw [List.isPrefixOf_cons_cons, Bool.and_eq_true, beq_iff_eq] at hprefix
    obtain ⟨rfl, -⟩ := hprefix
    simp [h] at hfirst

/-- A word of letters and hyphens is one token. -/
theorem next_word {name : List Char} (h : Name.isWord name = true) :
    next name = some (.word (String.ofList name), []) := by
  refine next_of_scan ?_ (by simp)
  have hread := Name.read_word h
  cases name with
  | nil => cases h
  | cons c rest =>
    have hc : c.isAlpha = true := ((Bool.and_eq_true _ _).mp h).1
    have hne : ∀ d : Char, d.isAlpha = false → c ≠ d := by
      rintro d hd rfl
      rw [hc] at hd
      cases hd
    have hnumber : Number.starts (c :: rest) = false := by
      simp [Number.starts, Numeral.splitSign, Number.startsDigits, hne,
        Text.not_isDigit_of_isAlpha hc]
    have hstarts : Name.starts (c :: rest) = true := by
      simp [Name.starts, hne, Name.isStart, hc]
    -- none of the tokens that are tried before names starts with a letter
    rw [scan, scanFrom, if_neg, if_neg, if_neg, if_neg, if_neg, if_neg]
    · simp [symbol?_of_isAlpha hc, bracket?, hne, hstarts, readWord, hread]
    · simp [hne]
    · simp [hne]
    · simp [hnumber]
    · simp [Extent.isQuote, hne]
    · simp [hne]
    · simp [Text.isSpace, Text.isNewline, hne]

/-- A hash is one token, up to the end of its digits. -/
theorem next_hash {digits : List Char} (hne : digits ≠ [])
    (h : ∀ c ∈ digits, Name.isHexDigit c = true) :
    next ('#' :: digits) = some (.hash (String.ofList digits), []) := by
  refine next_of_scan ?_ (by simp)
  have hread : Name.read digits = (digits, []) :=
    Name.read_of_forall fun c hc => Name.isPart_of_isHexDigit (h c hc)
  have hstarts : (Name.starts digits || digits.head?.any fun d => d.isDigit || d = '-') = true := by
    obtain ⟨c, rest, rfl⟩ := List.exists_cons_of_ne_nil hne
    rcases Name.isDigit_or_of_isHexDigit (h c List.mem_cons_self) with hdigit | halpha
    · simp [hdigit]
    · have hhyphen : c ≠ '-' := by
        rintro rfl
        cases halpha
      simp [Name.starts, hhyphen, Name.isStart, halpha]
  have hnumber : Number.starts ('#' :: digits) = false := rfl
  rw [scan, scanFrom, if_neg (by decide), if_neg (by simp), if_neg (by decide),
    if_neg (by simp [hnumber]), if_pos (by simpa using hstarts), hread]

end Token

end FlexStyle
