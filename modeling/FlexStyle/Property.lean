import FlexStyle.Box.Style
import FlexStyle.Value.Raw

/-!
# Properties

The CSS properties of flexible boxes. A property is known by what it writes: a part of the box
record, several parts at once, or a part of the text style. A shorthand writes what its longhands
write.

- `Property.name`, `Property.ofName?`: the name of a property, and the property of a name.
- `Property.patterns`, `Property.accept?`: the arguments that a property takes.
- `Property.longhands`, `Property.family`: the properties that write the same parts.
-/

namespace FlexStyle

/-- The edges that have a shorthand for all four sides. -/
inductive EdgeShorthand where
  | margin
  | padding
  | borderWidth
  deriving DecidableEq

/-- The edges that a shorthand writes. -/
def EdgeShorthand.box : EdgeShorthand → EdgeBox
  | margin => .margin
  | padding => .padding
  | borderWidth => .border

/-- The properties, each by what it writes. -/
inductive Property where
  | direction
  | keyword (field : KeywordField)
  | factor (field : FactorField)
  | aspectRatio
  | dimension (field : DimensionField)
  | edges (shorthand : EdgeShorthand)
  | flex
  | flexFlow
  | gap
  | fontSize
  | lineHeight
  | textAlign
  deriving DecidableEq

namespace Property

/-- The name of a property. -/
def name : Property → String
  | direction => "direction"
  | keyword .display => "display"
  | keyword .position => "position"
  | keyword .flexDirection => "flex-direction"
  | keyword .flexWrap => "flex-wrap"
  | keyword .justifyContent => "justify-content"
  | keyword .alignContent => "align-content"
  | keyword .alignItems => "align-items"
  | keyword .alignSelf => "align-self"
  | factor .flexGrow => "flex-grow"
  | factor .flexShrink => "flex-shrink"
  | aspectRatio => "aspect-ratio"
  | dimension (.edge .margin side) => "margin-" ++ side.name
  | dimension (.edge .padding side) => "padding-" ++ side.name
  | dimension (.edge .border side) => "border-" ++ side.name ++ "-width"
  | dimension (.edge .inset side) => side.name
  | dimension .width => "width"
  | dimension .height => "height"
  | dimension .minWidth => "min-width"
  | dimension .minHeight => "min-height"
  | dimension .maxWidth => "max-width"
  | dimension .maxHeight => "max-height"
  | dimension .flexBasis => "flex-basis"
  | dimension .rowGap => "row-gap"
  | dimension .columnGap => "column-gap"
  | edges .margin => "margin"
  | edges .padding => "padding"
  | edges .borderWidth => "border-width"
  | flex => "flex"
  | flexFlow => "flex-flow"
  | gap => "gap"
  | fontSize => "font-size"
  | lineHeight => "line-height"
  | textAlign => "text-align"

/-- The properties of the four sides of one edge. -/
def sides (box : EdgeBox) : List Property := Side.all.map fun side => dimension (.edge box side)

/-- All properties. -/
def all : List Property :=
  [keyword .display, keyword .position, direction, aspectRatio] ++ sides .inset ++
  [flex, factor .flexGrow, factor .flexShrink, dimension .flexBasis, flexFlow,
    keyword .flexDirection, keyword .flexWrap, keyword .justifyContent, keyword .alignContent,
    keyword .alignItems, keyword .alignSelf, gap, dimension .rowGap, dimension .columnGap] ++
  edges .margin :: sides .margin ++ edges .padding :: sides .padding ++
  edges .borderWidth :: sides .border ++
  [dimension .width, dimension .height, dimension .minWidth, dimension .minHeight,
    dimension .maxWidth, dimension .maxHeight, fontSize, lineHeight, textAlign]

/-- The property with a given name, without regard to case. -/
def ofName? (name : String) : Option Property :=
  all.find? fun p => Text.sameIgnoringCase p.name name

/-! ## Arguments -/

/-- The kinds of a dimension that may be a length or a percentage. -/
def lengthOrPercentage : Slot := [.length, .percentage]

/-- The kinds of a dimension that may be left to the layout too. -/
def lengthPercentageOrAuto : Slot := [.length, .percentage, .auto]

/-- The kinds of an argument of `flex` that is a factor or a basis. -/
def factorOrBasis : Slot := .number :: lengthPercentageOrAuto

/-- The kinds that a dimension on an edge may have. -/
def edgeSlot : EdgeBox → Slot
  | .margin => lengthPercentageOrAuto
  | .padding => lengthOrPercentage
  | .border => [.length]
  | .inset => lengthOrPercentage

/-- The kinds that a dimension may have. -/
def dimensionSlot : DimensionField → Slot
  | .edge box _ => edgeSlot box
  | .width => lengthPercentageOrAuto
  | .height => lengthPercentageOrAuto
  | .flexBasis => lengthPercentageOrAuto
  | _ => lengthOrPercentage

/-- The forms of a property's arguments, in the order in which they are tried. -/
def patterns : Property → List Pattern
  | direction => [[[.keyword .direction]]]
  | keyword field => [[[.keyword field.enumeration]]]
  | factor _ => [[[.number]]]
  | aspectRatio => [[[.ratio]]]
  | dimension field => [[dimensionSlot field]]
  | edges shorthand =>
    [1, 2, 3, 4].map fun count => List.replicate count (edgeSlot shorthand.box)
  | flex =>
    [[factorOrBasis], [[.number], factorOrBasis], [[.number], [.number], lengthPercentageOrAuto]]
  | flexFlow =>
    [[[.keyword .flexDirection, .keyword .flexWrap]],
      [[.keyword .flexDirection], [.keyword .flexWrap]]]
  | gap => [[lengthOrPercentage], [lengthOrPercentage, lengthOrPercentage]]
  | fontSize => [[lengthOrPercentage]]
  | lineHeight => [[[.number]]]
  | textAlign => [[[.keyword .textAlign]]]

/-- The values of arguments that a property takes. -/
def accept? (p : Property) (arguments : List Raw) : Option (List Value) :=
  Pattern.firstMatch? p.patterns arguments

/-! ## Families -/

/-- The properties that a shorthand stands for. -/
def longhands : Property → List Property
  | edges shorthand => sides shorthand.box
  | flex => [factor .flexGrow, factor .flexShrink, dimension .flexBasis]
  | flexFlow => [keyword .flexDirection, keyword .flexWrap]
  | gap => [dimension .rowGap, dimension .columnGap]
  | _ => []

/-- The shorthand that a property is covered by. -/
def shorthand? (p : Property) : Option Property := all.find? fun q => p ∈ q.longhands

/-- The properties that may write a part that this one writes: a shorthand and its longhands. -/
def family (p : Property) : List Property :=
  let head := p.shorthand?.getD p
  head :: head.longhands

/-- Whether a property writes the text style. -/
def isTextDefining : Property → Bool
  | fontSize => true
  | lineHeight => true
  | textAlign => true
  | _ => false

/-- The properties that write the text style, in order: other lengths depend on the font size. -/
def textDefining : List Property := [fontSize, lineHeight, textAlign]

end Property

end FlexStyle
