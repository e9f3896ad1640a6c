import FlexStyle.Binary.Arithmetic
import FlexStyle.Text

/-!
# Lengths

A length is a number with a unit. All units but the pixel are relative to the font in use, whose
measures are given by `RelativeMetrics`.

- `LengthUnit.ofSuffix?`, `LengthUnit.suffix`: a unit and its name.
- `LengthUnit.toPixels`: what a length comes to in pixels.
-/

namespace FlexStyle

/-- The units of length. -/
inductive LengthUnit where
  /-- The pixel, also the unit of a length without a suffix. -/
  | px
  /-- The advance of the digit zero. -/
  | ch
  /-- The font size. -/
  | em
  /-- The height of the letter x. -/
  | ex
  /-- The advance of an ideograph. -/
  | ic
  /-- The line height. -/
  | lh
  deriving DecidableEq

/-- The measures in pixels that the relative units stand for. -/
structure RelativeMetrics where
  fontSize : Single
  zeroAdvance : Single
  xHeight : Single
  ideographAdvance : Single
  lineHeight : Single

namespace LengthUnit

def all : List LengthUnit := [px, ch, em, ex, ic, lh]

/-- The name of a unit, as it is written after a number. -/
def suffix : LengthUnit → String
  | px => "px"
  | ch => "ch"
  | em => "em"
  | ex => "ex"
  | ic => "ic"
  | lh => "lh"

/-- The unit with a given name, without regard to case; no name at all stands for pixels. -/
def ofSuffix? (name : String) : Option LengthUnit :=
  if name.isEmpty then some px else all.find? fun unit => Text.sameIgnoringCase unit.suffix name

/-- The length of `value` units, in pixels. -/
def toPixels (metrics : RelativeMetrics) (value : Single) : LengthUnit → Single
  | px => value
  | ch => value * metrics.zeroAdvance
  | em => value * metrics.fontSize
  | ex => value * metrics.xHeight
  | ic => value * metrics.ideographAdvance
  | lh => value * metrics.lineHeight

end LengthUnit

end FlexStyle
