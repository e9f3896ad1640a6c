import FlexStyle.Decimal
import FlexStyle.Text

/-!
# Numerals

The full notation of a number, as it is given outside of style text: an optional sign, then a word
for infinity or for not-a-number, or digits with at most one point among them and an optional
exponent. At least one digit stands before or after the point. Nothing else may surround it.

- `Numeral.read?`: the number nearest to the value that is written.
-/

namespace FlexStyle.Numeral

/-- The value of a row of digits. -/
def natural (digits : List Char) : Nat := Nat.ofDigitChars 10 digits 0

/-- Splits off a sign; `true` stands for minus. -/
def splitSign : List Char → Bool × List Char
  | '-' :: rest => (true, rest)
  | '+' :: rest => (false, rest)
  | rest => (false, rest)

/--
The exponent that a numeral ends with, zero if nothing is left to read. It is cut off at `bound`
to either side.
-/
def exponent? (bound : Nat) : List Char → Option Int
  | [] => some 0
  | mark :: rest =>
    let (negative, digits) := splitSign rest
    let size := min (natural digits) bound
    if (mark = 'e' || mark = 'E') && !digits.isEmpty && digits.all Char.isDigit then
      some (if negative then -size else size)
    else none

/--
The decimal number of a numeral without a sign. An exponent beyond all digits and beyond
`2 ^ exponentBits` cannot change to which number of the format the value is nearest.
-/
def decimal? (f : Format) (text : List Char) : Option Decimal :=
  let whole := text.takeWhile Char.isDigit
  let (fraction, rest) :=
    match text.dropWhile Char.isDigit with
    | '.' :: rest => (rest.takeWhile Char.isDigit, rest.dropWhile Char.isDigit)
    | rest => ([], rest)
  let digits := whole ++ fraction
  if digits.isEmpty then none
  else
    (exponent? (digits.length + Nat.pow 2 f.exponentBits) rest).map fun exponent =>
      ⟨natural digits, exponent - fraction.length⟩

/-- The number that a numeral stands for. -/
def read? (f : Format) (text : List Char) : Option (Binary f) :=
  let (negative, rest) := splitSign text
  let word := Text.lower (String.ofList rest)
  if word = "inf" || word = "infinity" then some (.infinite negative)
  else if word = "nan" then some { Binary.invalid with negative }
  else (decimal? f rest).map (Decimal.toBinary f negative)

end FlexStyle.Numeral
