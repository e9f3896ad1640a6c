import FlexStyle.Length
import FlexStyle.Property

/-!
# What properties write to a box

A property with values stands for assignments to parts of the box record. Without a value it stands
for the assignments that put the initial values back.

- `Dimension.ofValue?`: the dimension that a value stands for.
- `Property.assignments`, `Property.resets`: the assignments of a property.
-/

namespace FlexStyle

/-- The dimension that a value stands for; relative lengths are measured. -/
def Dimension.ofValue? (metrics : RelativeMetrics) : Value → Option Dimension
  | .length x unit => some (.points (unit.toPixels metrics x))
  | .percentage x => some (.percent x)
  | .auto => some .auto
  | _ => none

namespace Property

/--
Grow factor, shrink factor and basis of the values of `flex`. A number alone grows from nothing, a
basis alone grows and shrinks by one; of two values the first is the grow factor.
-/
def flexParts? (metrics : RelativeMetrics) : List Value → Option (Single × Single × Dimension)
  | [.number grow] => some (grow, 1, .points 0)
  | [basis] => (Dimension.ofValue? metrics basis).map (1, 1, ·)
  | [.number grow, .number shrink] => some (grow, shrink, .points 0)
  | [.number grow, basis] => (Dimension.ofValue? metrics basis).map (grow, 1, ·)
  | [.number grow, .number shrink, basis] =>
    (Dimension.ofValue? metrics basis).map (grow, shrink, ·)
  | _ => none

/-- Row gap and column gap of the values of `gap`; one value stands for both. -/
def gapParts? (metrics : RelativeMetrics) : List Value → Option (Dimension × Dimension)
  | [both] => (Dimension.ofValue? metrics both).map fun d => (d, d)
  | [row, column] => do
    let row ← Dimension.ofValue? metrics row
    let column ← Dimension.ofValue? metrics column
    return (row, column)
  | _ => none

/-- The assignment of one word of `flex-flow`. -/
def flowAssignment? (value : Value) : Option Assignment :=
  match value.asKeyword? .flexDirection with
  | some k => some (.keyword .flexDirection k)
  | none => (value.asKeyword? .flexWrap).map (.keyword .flexWrap)

/-- The assignments to the box record that a property with values stands for. -/
def assignments (metrics : RelativeMetrics) (p : Property) (values : List Value) :
    List Assignment :=
  match p with
  | direction =>
    (values.head?.bind (·.asKeyword? .direction)).toList.map fun k => .direction (some k)
  | keyword field =>
    (values.head?.bind (·.asKeyword? field.enumeration)).toList.map (.keyword field)
  | factor field => (values.head?.bind (·.asNumber?)).toList.map (.factor field)
  | aspectRatio =>
    match values.head? with
    | some (.ratio x) => [.aspectRatio (some x)]
    | _ => []
  | dimension field =>
    (values.head?.bind (Dimension.ofValue? metrics)).toList.map (.dimension field)
  | edges shorthand =>
    ((values.mapM (Dimension.ofValue? metrics)).bind Edges.ofList?).toList.map
      (.edges shorthand.box)
  | flex =>
    match flexParts? metrics values with
    | some (grow, shrink, basis) =>
      [.factor .flexGrow grow, .factor .flexShrink shrink, .dimension .flexBasis basis]
    | none => []
  | flexFlow => values.filterMap flowAssignment?
  | gap =>
    match gapParts? metrics values with
    | some (row, column) => [.dimension .rowGap row, .dimension .columnGap column]
    | none => []
  | fontSize => []
  | lineHeight => []
  | textAlign => []

/-- The assignments that give the parts of a property the values of another record. -/
def resets (initial : BoxStyle) : Property → List Assignment
  | direction => [.direction initial.direction]
  | keyword field => [.keyword field (initial.keyword field)]
  | factor field => [.factor field (initial.factor field)]
  | aspectRatio => [.aspectRatio initial.aspectRatio]
  | dimension field => [.dimension field (initial.dimension field)]
  | edges shorthand => [.edges shorthand.box (initial.edges shorthand.box)]
  | flex =>
    [.factor .flexGrow initial.flexGrow, .factor .flexShrink initial.flexShrink,
      .dimension .flexBasis initial.flexBasis]
  | flexFlow =>
    [.keyword .flexDirection initial.flexDirection, .keyword .flexWrap initial.flexWrap]
  | gap => [.dimension .rowGap initial.rowGap, .dimension .columnGap initial.columnGap]
  | fontSize => []
  | lineHeight => []
  | textAlign => []

end Property

end FlexStyle
