import FlexStyle.Binary.Arithmetic

/-!
# Decimal numbers

A decimal number is a natural number of digits, scaled by a power of ten.

- `Decimal.toBinary`: the binary number nearest to a decimal number.
- `Decimal.positional`: its digits written out, without an exponent and without a zero that could
  be left away; `Decimal.integerText` is the same for integers.
-/

namespace FlexStyle

/-- The value `digits * 10 ^ exponent`. -/
structure Decimal where
  digits : Nat
  exponent : Int
  deriving DecidableEq

namespace Decimal

/-- The numerator of the value as a quotient of natural numbers. -/
def numerator (d : Decimal) : Nat := d.digits * Nat.pow 10 d.exponent.toNat

/-- The denominator of the value as a quotient of natural numbers. -/
def denominator (d : Decimal) : Nat := Nat.pow 10 (-d.exponent).toNat

/-- The code of the magnitude nearest to a decimal number. -/
def code (f : Format) (d : Decimal) : Nat := f.nearest (d.numerator * f.unitsPerOne) d.denominator

/-- The binary number nearest to a decimal number, with a sign. -/
def toBinary (f : Format) (negative : Bool) (d : Decimal) : Binary f :=
  .rounded negative (d.numerator * f.unitsPerOne) d.denominator

/-- The digits of an integer after its sign. -/
def integerText (n : Int) : List Char :=
  let digits := Nat.toDigits 10 n.natAbs
  if n < 0 then '-' :: digits else digits

/-- The digits of a fraction with `places` digits after the point, without zeros at its end. -/
def fractionText (places fraction : Nat) : List Char :=
  let digits := Nat.toDigits 10 fraction
  let padded := List.replicate (places - digits.length) '0' ++ digits
  (padded.reverse.dropWhile (· = '0')).reverse

/-- The digits of a decimal number; a point stands only before a digit that is not zero. -/
def positional (d : Decimal) : List Char :=
  let whole := Nat.toDigits 10 (d.numerator / d.denominator)
  match d.numerator % d.denominator with
  | 0 => whole
  | fraction => whole ++ '.' :: fractionText (-d.exponent).toNat fraction

end Decimal

end FlexStyle
