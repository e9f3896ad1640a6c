import FlexStyle.Decimal

/-!
# The shortest decimal text of a binary number

Of the decimal numbers that are read as a given binary number, the shortest is one on the coarsest
grid of powers of ten that holds any of them. On each grid only the two neighbours of the exact
value have to be tried. If both are read back, the nearer one is taken, and the upper one if they
are equally near.

- `Decimal.shortest`: that decimal number.
- `Binary.text`: the text of a number, with words for what is not finite.
-/

namespace FlexStyle

namespace Decimal

/-- The exact value of a finite code: a power of five undoes the division by `unitsPerOne`. -/
def exact (f : Format) (code : Nat) : Decimal :=
  ⟨f.units code * Nat.pow 5 f.unitShift, -f.unitShift⟩

/-- The number on the grid of `10 ^ exponent` that stands for a code, if there is one. -/
def onGrid? (f : Format) (code : Nat) (exponent : Int) : Option Decimal :=
  let numerator := f.units code * Nat.pow 10 (-exponent).toNat
  let denominator := f.unitsPerOne * Nat.pow 10 exponent.toNat
  let lower : Decimal := ⟨numerator / denominator, exponent⟩
  let upper : Decimal := ⟨numerator / denominator + 1, exponent⟩
  let isLower := lower.code f = code
  let isUpper := upper.code f = code
  if isUpper && (!isLower || denominator ≤ 2 * (numerator % denominator)) then some upper
  else if isLower then some lower
  else none

/-- A power of ten that is larger than the magnitude of a code. -/
def topExponent (f : Format) (code : Nat) : Nat := (f.units code / f.unitsPerOne).log2 / 3 + 1

/-- The decimal number with the fewest digits that is read as the magnitude of a finite code. -/
def shortest (f : Format) (code : Nat) : Decimal :=
  if code = 0 then ⟨0, 0⟩
  else
    let top := topExponent f code
    let grids := (List.range (top + f.unitShift)).map fun step : Nat => (top : Int) - step
    (grids.findSome? (onGrid? f code)).getD (exact f code)

/-- Whatever grid is chosen, its number is read back as the code. -/
theorem code_of_onGrid? {f : Format} {code : Nat} {exponent : Int} {d : Decimal}
    (h : onGrid? f code exponent = some d) : d.code f = code := by
  grind [onGrid?]

end Decimal

namespace Binary

/-- The text of a number: the shortest digits that are read back, never with an exponent. -/
def text {f : Format} (x : Binary f) : String :=
  if x.isNaN then "NaN"
  else
    let sign := if x.negative then "-" else ""
    let magnitude :=
      if x.isInfinite then "inf" else String.ofList (Decimal.shortest f x.code).positional
    sign ++ magnitude

end Binary

end FlexStyle
