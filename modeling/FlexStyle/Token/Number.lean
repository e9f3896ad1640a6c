import FlexStyle.Decimal.Numeral
import FlexStyle.Token
import FlexStyle.Token.Name

/-!
# Numbers in CSS text

A number is an optional sign, digits with at most one point that has a digit after it, and an
optional exponent. Its value is summed digit by digit in double precision, so a long numeral may
differ in the last place from the number nearest to what is written.

- `Number.starts`: whether a number stands at the front of a text.
- `Number.Parts`: that number as it is written, with its `value` and its `integer?`.
- `Number.read`: its token, a percentage or a dimension included.
-/

namespace FlexStyle.Number

open Binary (ofRatio)

/-- Whether a text starts with a digit, or with a point and a digit. -/
def startsDigits : List Char → Bool
  | '.' :: rest => rest.head?.any Char.isDigit
  | c :: _ => c.isDigit
  | [] => false

/-- Whether the text starts with a number. -/
def starts (text : List Char) : Bool := startsDigits (Numeral.splitSign text).2

/-- The digit as a number. -/
def digit (c : Char) : Double := ofRatio (c.toNat - '0'.toNat) 1

/-- The sum of the digits before the point. -/
def wholeSum (digits : List Char) : Double :=
  digits.foldl (fun sum c => sum * 10 + digit c) 0

/-- The sum of the digits after the point; each has a tenth of the weight of the one before. -/
def fractionSum (digits : List Char) : Double :=
  (digits.foldl (fun (sum, weight) c => (sum + digit c * weight, weight * ofRatio 1 10))
    (0, ofRatio 1 10)).1

/--
The powers of ten that are not rounded to the nearest number. The first is halfway between two
numbers, the second a thousandth of their distance below that; the larger one stands for both.
-/
def roundedUp : List Nat := [23, 210]

/--
Ten to a power, to the nearest number but for those that are rounded up; from the exponent 400 on it
is infinite, or zero.
-/
def powerOfTen (negative : Bool) (exponent : Nat) : Double :=
  let power := Nat.pow 10 (min exponent 400)
  if negative then ofRatio 1 power
  else if exponent ∈ roundedUp then (ofRatio power 1).outward
  else ofRatio power 1

/-- The digits after a point that is followed by one, and the text after them. -/
def readFraction (text : List Char) : List Char × List Char :=
  match text with
  | '.' :: rest =>
    if rest.head?.any Char.isDigit then (rest.takeWhile Char.isDigit, rest.dropWhile Char.isDigit)
    else ([], text)
  | _ => ([], text)

/-- The sign and the digits of an exponent, and the text after them. -/
def readExponent? : List Char → Option ((Bool × List Char) × List Char)
  | mark :: rest =>
    let (negative, after) := Numeral.splitSign rest
    if (mark = 'e' || mark = 'E') && after.head?.any Char.isDigit then
      some ((negative, after.takeWhile Char.isDigit), after.dropWhile Char.isDigit)
    else none
  | [] => none

/-- A number as it is written. -/
structure Parts where
  negative : Bool
  whole : List Char
  fraction : List Char
  /-- The sign and the digits of the exponent; `true` stands for minus. -/
  exponent : Option (Bool × List Char)

namespace Parts

/-- The value of a number as it is written. -/
def value (parts : Parts) : Double :=
  let sum := wholeSum parts.whole + fractionSum parts.fraction
  let signed := if parts.negative then -sum else sum
  match parts.exponent with
  | some (negative, digits) => signed * powerOfTen negative (Numeral.natural digits)
  | none => signed

/-- The integer of a number without point and exponent, cut off at the bounds of 32 bits. -/
def integer? (parts : Parts) : Option Int32 :=
  if parts.fraction.isEmpty && parts.exponent.isNone then
    some (Int32.ofIntClamp parts.value.truncate)
  else none

end Parts

/-- The parts of the number at the front of a text, and the text after it. -/
def readParts (text : List Char) : Parts × List Char :=
  let (negative, body) := Numeral.splitSign text
  let whole := body.takeWhile Char.isDigit
  let (fraction, rest) := readFraction (body.dropWhile Char.isDigit)
  match readExponent? rest with
  | some (exponent, rest) => (⟨negative, whole, fraction, some exponent⟩, rest)
  | none => (⟨negative, whole, fraction, none⟩, rest)

/-- The token of the number at the front of a text, and the text after it. -/
def read (text : List Char) : Token × List Char :=
  let (parts, rest) := readParts text
  match rest with
  | '%' :: rest => (.percentage ((parts.value / 100).convert .single), rest)
  | _ =>
    if Name.starts rest then
      let (unit, rest) := Name.read rest
      (.dimension (parts.value.convert .single) (String.ofList unit), rest)
    else (.number (parts.value.convert .single) parts.integer?, rest)

theorem length_readFraction_le (text : List Char) :
    (readFraction text).2.length ≤ text.length := by
  unfold readFraction
  split
  · split
    · exact Nat.le_succ_of_le ((List.dropWhile_sublist _).length_le)
    · exact Nat.le_refl _
  · exact Nat.le_refl _

theorem length_splitSign_le (text : List Char) :
    (Numeral.splitSign text).2.length ≤ text.length := by
  unfold Numeral.splitSign
  split <;> simp

/-- Where a number starts, its first digits take something away. -/
theorem length_readFraction_lt {text : List Char} (h : startsDigits text = true) :
    (readFraction (text.dropWhile Char.isDigit)).2.length < text.length := by
  unfold startsDigits at h
  split at h
  · rename_i rest
    have point : ('.' :: rest).dropWhile Char.isDigit = '.' :: rest :=
      List.dropWhile_cons_of_neg (by decide)
    rw [point]
    simp only [readFraction, h, if_true]
    exact Nat.lt_succ_of_le ((List.dropWhile_sublist _).length_le)
  · rename_i c rest _
    rw [List.dropWhile_cons_of_pos h]
    refine Nat.lt_of_le_of_lt (length_readFraction_le _) ?_
    exact Nat.lt_succ_of_le ((List.dropWhile_sublist _).length_le)
  · contradiction

theorem length_readExponent_lt {text rest : List Char} {exponent : Bool × List Char}
    (h : readExponent? text = some (exponent, rest)) : rest.length < text.length := by
  unfold readExponent? at h
  split at h
  · rename_i after
    simp only at h
    split at h
    · cases h
      exact Nat.lt_succ_of_le
        (Nat.le_trans (List.dropWhile_sublist _).length_le (length_splitSign_le after))
    · contradiction
  · contradiction

/-- Where a number starts, its parts take something away. -/
theorem length_readParts_lt {text : List Char} (h : starts text = true) :
    (readParts text).2.length < text.length := by
  have first : (readFraction ((Numeral.splitSign text).2.dropWhile Char.isDigit)).2.length
      < text.length :=
    Nat.lt_of_lt_of_le (length_readFraction_lt h) (length_splitSign_le text)
  unfold readParts
  simp only
  split
  · rename_i eq
    exact Nat.lt_trans (length_readExponent_lt eq) first
  · exact first

/-- Where a number starts, reading it takes something away. -/
theorem length_read_lt {text : List Char} (h : starts text = true) :
    (read text).2.length < text.length := by
  have first := length_readParts_lt h
  unfold read
  simp only
  split
  · rename_i eq
    rw [eq] at first
    exact Nat.lt_of_succ_lt first
  · split
    · exact Nat.lt_of_le_of_lt (Name.length_read_le _) first
    · exact first

end FlexStyle.Number
