import FlexStyle.Decimal.Numeral
import FlexStyle.Decimal.Shortest
import FlexStyle.Proofs.Binary
import FlexStyle.Proofs.Text
import Mathlib.Tactic.Ring

/-!
# Written numbers read back

A finite number is written as a sign, digits, and a point only before further digits. As a numeral,
this text is read as the very number that was written.

- `Numeral.Plain`: numbers in this notation; `Numeral.Plain.text`, `Numeral.Plain.decimal`: such a
  number as it is written, and its value.
- `Numeral.Plain.read?_text`: the number that is read from it.
- `Decimal.exists_plain`: the positional text of a decimal number is plain and has its value.
- `Binary.exists_plain`, `Binary.read?_text`: the same of the text of a binary number.
-/

namespace FlexStyle

namespace Numeral

/-! ## Rows of digits -/

theorem natural_append (first second : List Char) :
    natural (first ++ second) = 10 ^ second.length * natural first + natural second := by
  rw [natural, Nat.ofDigitChars_append, Nat.ofDigitChars_eq_ofDigitChars_zero]
  rfl

theorem natural_zeros (count : Nat) : natural (List.replicate count '0') = 0 := by
  rw [natural, Nat.ofDigitChars_replicate_zero, Nat.mul_zero]

@[simp] theorem natural_toDigits (n : Nat) : natural (Nat.toDigits 10 n) = n :=
  Nat.ofDigitChars_ten_toDigits

/-- A row of digits without the zeros at its end. -/
theorem exists_zeros (digits : List Char) :
    ∃ count, (digits.reverse.dropWhile (· = '0')).reverse ++ List.replicate count '0' = digits := by
  refine ⟨(digits.reverse.takeWhile (· = '0')).length, ?_⟩
  have hzeros : List.replicate (digits.reverse.takeWhile (· = '0')).length '0' =
      (digits.reverse.takeWhile (· = '0')).reverse := by
    refine (List.eq_replicate_iff.mpr ⟨List.length_reverse, fun c hc => ?_⟩).symm
    simpa using List.mem_takeWhile_imp (List.mem_reverse.mp hc)
  rw [hzeros, ← List.reverse_append, List.takeWhile_append_dropWhile, List.reverse_reverse]

/-- A row of digits ends where another character follows. -/
theorem takeWhile_digits {digits : List Char} (h : ∀ c ∈ digits, c.isDigit = true)
    (rest : List Char) (hrest : rest.head?.all (!·.isDigit) = true) :
    (digits ++ rest).takeWhile Char.isDigit = digits ∧
      (digits ++ rest).dropWhile Char.isDigit = rest := by
  rw [List.takeWhile_append_of_pos h, List.dropWhile_append_of_pos h]
  cases rest with
  | nil => simp
  | cons c rest => simp_all

/-- Digits with at most one point among them, and an exponent behind them, are read as such. -/
theorem decimal?_digits (f : Format) {whole fraction tail : List Char} {exponent : Int}
    (hwhole : ∀ c ∈ whole, c.isDigit = true) (hfraction : ∀ c ∈ fraction, c.isDigit = true)
    (hne : whole ++ fraction ≠ []) (htail : tail.head?.all (fun c => !c.isDigit && c != '.') = true)
    (hexponent : exponent? ((whole ++ fraction).length + Nat.pow 2 f.exponentBits) tail =
      some exponent) :
    decimal? f (whole ++ (if fraction.isEmpty then [] else '.' :: fraction) ++ tail) =
      some ⟨natural (whole ++ fraction), exponent - fraction.length⟩ := by
  have hdigit : tail.head?.all (!·.isDigit) = true := by
    cases tail <;> simp_all
  have hempty : (whole ++ fraction).isEmpty = false := by simpa using hne
  rw [List.append_assoc]
  cases fraction with
  | nil =>
    obtain ⟨htake, hdrop⟩ := takeWhile_digits hwhole tail hdigit
    unfold decimal?
    simp only [List.isEmpty_nil, if_true, List.nil_append, htake, hdrop]
    split
    case h_1 => cases htail
    case h_2 => simp only [hempty, Bool.false_eq_true, if_false, hexponent, Option.map_some]
  | cons c more =>
    obtain ⟨htake, hdrop⟩ := takeWhile_digits hwhole ('.' :: (c :: more ++ tail)) rfl
    obtain ⟨htake', hdrop'⟩ := takeWhile_digits hfraction tail hdigit
    rw [List.isEmpty_cons, if_neg Bool.false_ne_true, List.cons_append]
    unfold decimal?
    simp only [htake, hdrop, htake', hdrop', hempty, Bool.false_eq_true, if_false, hexponent,
      Option.map_some]

/-! ## The plain notation -/

/-- A number in the plain notation: without a plus sign, an exponent, or a point at its end. -/
structure Plain where
  negative : Bool
  whole : List Char
  fraction : List Char
  whole_ne : whole ≠ []
  whole_digits : ∀ c ∈ whole, c.isDigit = true
  fraction_digits : ∀ c ∈ fraction, c.isDigit = true

namespace Plain

/-- The number without its sign. -/
def magnitude (p : Plain) : List Char :=
  p.whole ++ if p.fraction.isEmpty then [] else '.' :: p.fraction

/-- The number as it is written. -/
def text (p : Plain) : List Char := (if p.negative then ['-'] else []) ++ p.magnitude

/-- The value of the number, without its sign. -/
def decimal (p : Plain) : Decimal := ⟨natural (p.whole ++ p.fraction), -p.fraction.length⟩

/-- An integer in the plain notation. -/
def ofInt (n : Int) : Plain where
  negative := n < 0
  whole := Nat.toDigits 10 n.natAbs
  fraction := []
  whole_ne := Nat.toDigits_ne_nil
  whole_digits := fun _ hc => Nat.isDigit_of_mem_toDigits (by decide) (by decide) hc
  fraction_digits := by simp

theorem text_ofInt (n : Int) : (ofInt n).text = Decimal.integerText n := by
  by_cases h : n < 0 <;> simp [text, magnitude, ofInt, Decimal.integerText, h]

/-- A number starts with a digit after its sign. -/
theorem exists_magnitude (p : Plain) :
    ∃ c rest, p.magnitude = c :: rest ∧ c.isDigit = true := by
  obtain ⟨c, rest, hwhole⟩ := List.exists_cons_of_ne_nil p.whole_ne
  refine ⟨c, rest ++ if p.fraction.isEmpty then [] else '.' :: p.fraction, ?_, ?_⟩
  · rw [magnitude, hwhole]
    rfl
  · exact p.whole_digits c (hwhole ▸ List.mem_cons_self)

theorem splitSign_text (p : Plain) (rest : List Char) :
    splitSign (p.text ++ rest) = (p.negative, p.magnitude ++ rest) := by
  cases hneg : p.negative with
  | true => simp [text, hneg, splitSign]
  | false =>
    obtain ⟨c, tail, hmagnitude, hdigit⟩ := p.exists_magnitude
    have hplain : c ≠ '-' ∧ c ≠ '+' := by
      constructor <;> rintro rfl <;> exact absurd hdigit (by decide)
    simp [text, hneg, hmagnitude, splitSign, hplain.1, hplain.2]

theorem decimal?_magnitude (f : Format) (p : Plain) : decimal? f p.magnitude = some p.decimal := by
  have hexponent : exponent? ((p.whole ++ p.fraction).length + Nat.pow 2 f.exponentBits) [] =
      some 0 := rfl
  have hread := decimal?_digits f p.whole_digits p.fraction_digits (by simp [p.whole_ne]) rfl
    hexponent
  rwa [List.append_nil, Int.zero_sub] at hread

/-- No word starts with a digit. -/
theorem lower_magnitude_ne (p : Plain) {word : String}
    (h : word.toList.head?.all (!·.isDigit) = true) :
    Text.lower (String.ofList p.magnitude) ≠ word := by
  obtain ⟨c, rest, hmagnitude, hdigit⟩ := p.exists_magnitude
  rintro rfl
  have hlower : c.toLower = c := Text.toLower_of_not_isUpper (Text.not_isUpper_of_isDigit hdigit)
  simp [Text.lower, hmagnitude, String.toList_map, hlower, hdigit] at h

/-- A number is read as what is nearest to its value. -/
theorem read?_text (f : Format) (p : Plain) :
    read? f p.text = some (p.decimal.toBinary f p.negative) := by
  have hsign := p.splitSign_text []
  rw [List.append_nil, List.append_nil] at hsign
  unfold read?
  simp only [hsign, decimal?_magnitude, Option.map_some]
  rw [if_neg, if_neg]
  · exact p.lower_magnitude_ne (by decide)
  · simp only [Bool.or_eq_true, decide_eq_true_eq, not_or]
    exact ⟨p.lower_magnitude_ne (by decide), p.lower_magnitude_ne (by decide)⟩

end Plain

end Numeral

namespace Decimal

/-- The digits after the point count what is left of the whole. -/
theorem fractionText_spec {places fraction : Nat} (h₀ : fraction ≠ 0) (h : fraction < 10 ^ places) :
    fractionText places fraction ≠ [] ∧ (∀ c ∈ fractionText places fraction, c.isDigit = true) ∧
      ∃ zeros, (fractionText places fraction).length + zeros = places ∧
        10 ^ zeros * Numeral.natural (fractionText places fraction) = fraction := by
  have hplaces : 0 < places := by
    rcases Nat.eq_zero_or_pos places with rfl | hpos
    · omega
    · exact hpos
  -- zeros are put in front up to the places, and those at the end are taken away
  have hlength := (Nat.length_toDigits_le_iff (by decide) hplaces).mpr h
  obtain ⟨zeros, hzeros⟩ := Numeral.exists_zeros
    (List.replicate (places - (Nat.toDigits 10 fraction).length) '0' ++ Nat.toDigits 10 fraction)
  rw [← fractionText] at hzeros
  have hnatural := congrArg Numeral.natural hzeros
  rw [Numeral.natural_append, Numeral.natural_append, Numeral.natural_zeros,
    Numeral.natural_zeros, Numeral.natural_toDigits, List.length_replicate] at hnatural
  refine ⟨?_, ?_, zeros, ?_, by omega⟩
  · intro hnil
    rw [hnil] at hnatural
    simp [Numeral.natural] at hnatural
    omega
  · intro c hc
    have hmem := hzeros ▸ List.mem_append_left _ hc
    rcases List.mem_append.mp hmem with hmem | hmem
    · rw [List.eq_of_mem_replicate hmem]
      rfl
    · exact Nat.isDigit_of_mem_toDigits (by decide) (by decide) hmem
  · have := congrArg List.length hzeros
    simp only [List.length_append, List.length_replicate] at this
    omega

theorem denominator_pos (d : Decimal) : 0 < d.denominator := Nat.pow_pos (by decide)

/-- The code of a decimal number depends on its value alone. -/
theorem code_congr {f : Format} {d d' : Decimal}
    (h : d.numerator * d'.denominator = d'.numerator * d.denominator) : d.code f = d'.code f := by
  refine f.nearest_congr d.denominator_pos d'.denominator_pos ?_
  rw [Nat.mul_right_comm, h, Nat.mul_right_comm]

/-- The value of a number in the plain notation. -/
theorem numerator_plain (p : Numeral.Plain) :
    p.decimal.numerator =
      10 ^ p.fraction.length * Numeral.natural p.whole + Numeral.natural p.fraction := by
  rw [Numeral.Plain.decimal, numerator, Numeral.natural_append]
  simp

theorem denominator_plain (p : Numeral.Plain) :
    p.decimal.denominator = 10 ^ p.fraction.length := by
  simp [Numeral.Plain.decimal, denominator]

/-- The digits of a decimal number have its value. -/
theorem exists_plain (d : Decimal) (negative : Bool) :
    ∃ p : Numeral.Plain, p.negative = negative ∧ p.magnitude = d.positional ∧
      p.decimal.numerator * d.denominator = d.numerator * p.decimal.denominator := by
  have hdiv := Nat.div_add_mod d.numerator d.denominator
  have hlt := Nat.mod_lt d.numerator d.denominator_pos
  unfold positional
  -- from here on, all that counts of the quotient is `hdiv`
  generalize d.numerator / d.denominator = whole at hdiv
  have hdigits : ∀ c ∈ Nat.toDigits 10 whole, c.isDigit = true :=
    fun c hc => Nat.isDigit_of_mem_toDigits (by decide) (by decide) hc
  cases hrest : d.numerator % d.denominator with
  | zero =>
    refine ⟨⟨negative, Nat.toDigits 10 whole, [], Nat.toDigits_ne_nil, hdigits, by simp⟩, rfl,
      by simp [Numeral.Plain.magnitude], ?_⟩
    rw [numerator_plain, denominator_plain, ← hdiv, hrest]
    simp [Numeral.natural, Nat.mul_comm]
  | succ rest =>
    rw [hrest] at hlt hdiv
    have hplaces : d.denominator = 10 ^ (-d.exponent).toNat := rfl
    rw [hplaces] at hlt hdiv ⊢
    obtain ⟨hne, hfraction, zeros, hlength, hvalue⟩ :=
      fractionText_spec (Nat.add_one_ne_zero rest) hlt
    generalize htext : fractionText (-d.exponent).toNat (rest + 1) = fraction at *
    refine ⟨⟨negative, Nat.toDigits 10 whole, fraction, Nat.toDigits_ne_nil, hdigits, hfraction⟩,
      rfl, by simp [Numeral.Plain.magnitude, hne, htext], ?_⟩
    rw [numerator_plain, denominator_plain]
    dsimp only
    rw [Numeral.natural_toDigits, ← hdiv, ← hlength, Nat.pow_add, ← hvalue]
    ring

/-! ## The shortest digits -/

theorem code_exact {f : Format} {code : Nat} (h : code < f.infinity) :
    (exact f code).code f = code := by
  have hnumerator : (exact f code).numerator = f.units code * 5 ^ f.unitShift := by
    simp [exact, numerator]
  have hdenominator : (exact f code).denominator = 10 ^ f.unitShift := by
    simp [exact, denominator]
  rw [Decimal.code, hnumerator, hdenominator, Format.unitsPerOne, Nat.pow_eq, Nat.mul_assoc,
    ← Nat.mul_pow]
  exact f.nearest_units_mul h (Nat.pow_pos (by decide))

/-- The shortest digits of a finite magnitude are read as that magnitude. -/
theorem code_shortest {f : Format} {code : Nat} (h : code < f.infinity) :
    (shortest f code).code f = code := by
  unfold shortest
  split
  case isTrue hzero => simp [hzero, Decimal.code, numerator]
  case isFalse =>
    dsimp only
    generalize (List.range _).map _ = grids
    cases hfind : grids.findSome? (onGrid? f code) with
    -- where no grid has such a number, the exact value is written
    | none => exact code_exact h
    | some d =>
      obtain ⟨exponent, -, hgrid⟩ := List.exists_of_findSome?_eq_some hfind
      exact code_of_onGrid? hgrid

end Decimal

namespace Binary

variable {f : Format} {x : Binary f}

/-- A finite number is written in the plain notation, with its own sign and magnitude. -/
theorem exists_plain (h : x.isFinite = true) :
    ∃ p : Numeral.Plain, x.text.toList = p.text ∧ p.decimal.toBinary f p.negative = x := by
  obtain ⟨p, hnegative, hmagnitude, hvalue⟩ := (Decimal.shortest f x.code).exists_plain x.negative
  have hcode : p.decimal.code f = x.code :=
    (Decimal.code_congr hvalue).trans (Decimal.code_shortest (by simpa [isFinite] using h))
  refine ⟨p, ?_, ?_⟩
  · rw [text, isNaN_of_isFinite h, isInfinite_of_isFinite h, Numeral.Plain.text, hnegative,
      hmagnitude]
    cases x.negative <;> simp
  · obtain ⟨negative, code, hlt⟩ := x
    simp only [Decimal.toBinary, rounded, mk.injEq]
    exact ⟨hnegative, hcode⟩

/-- The text of a finite number is read back as that number. -/
theorem read?_text (h : x.isFinite = true) : Numeral.read? f x.text.toList = some x := by
  obtain ⟨p, htext, hvalue⟩ := exists_plain h
  rw [htext, Numeral.Plain.read?_text, hvalue]

end Binary

end FlexStyle
