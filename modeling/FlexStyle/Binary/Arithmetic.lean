import FlexStyle.Binary

/-!
# Arithmetic on binary numbers

Each operation computes its exact result on units and rounds it once, to the nearest number. Where
an operand is not a number the result is that operand, the first one if both are; an operation
that has no answer gives `Binary.invalid`.

- `Binary.mul`, `Binary.div`, `Binary.add`: the operations behind `*`, `/` and `+`.
- `Binary.convert`: the same value in another format.
- `Binary.truncate`: the integer part.
-/

namespace FlexStyle.Binary

variable {f : Format}

instance : Neg (Binary f) := ⟨fun x => { x with negative := !x.negative }⟩

/-- The product of two numbers; zero times infinity is invalid. -/
def mul (x y : Binary f) : Binary f :=
  if x.isNaN then x.quiet
  else if y.isNaN then y.quiet
  else
    let negative := x.negative ^^ y.negative
    if x.isInfinite || y.isInfinite then
      if x.isZero || y.isZero then invalid else infinite negative
    else rounded negative (x.units * y.units) f.unitsPerOne

instance : Mul (Binary f) := ⟨mul⟩

/-- The quotient of two numbers; zero by zero and infinity by infinity are invalid. -/
def div (x y : Binary f) : Binary f :=
  if x.isNaN then x.quiet
  else if y.isNaN then y.quiet
  else
    let negative := x.negative ^^ y.negative
    if x.isInfinite then
      if y.isInfinite then invalid else infinite negative
    else if y.isInfinite then zero negative
    else if y.isZero then
      if x.isZero then invalid else infinite negative
    else rounded negative (x.units * f.unitsPerOne) y.units

instance : Div (Binary f) := ⟨div⟩

/-- The value of a finite number, in units and with its sign. -/
def signedUnits (x : Binary f) : Int := if x.negative then -x.units else x.units

/--
The sum of two numbers; infinities of opposite signs have none. A sum that vanishes is minus zero
only if both operands are negative.
-/
def add (x y : Binary f) : Binary f :=
  if x.isNaN then x.quiet
  else if y.isNaN then y.quiet
  else if x.isInfinite then
    if y.isInfinite && (x.negative ^^ y.negative) then invalid else x
  else if y.isInfinite then y
  else
    let sum := x.signedUnits + y.signedUnits
    if sum = 0 then zero (x.negative && y.negative) else rounded (sum < 0) sum.natAbs 1

instance : Add (Binary f) := ⟨add⟩

/-- The number of format `g` nearest to `x`. -/
def convert (g : Format) (x : Binary f) : Binary g :=
  if x.isNaN then { invalid with negative := x.negative }
  else if x.isInfinite then infinite x.negative
  else rounded x.negative (x.units * g.unitsPerOne) f.unitsPerOne

/-- The integer part of a finite number. -/
def truncate (x : Binary f) : Int :=
  let whole := x.units / f.unitsPerOne
  if x.negative then -whole else whole

end FlexStyle.Binary
