import FlexStyle.Box.Dimension
import FlexStyle.Change
import FlexStyle.Keyword

/-!
# Box records

The record of one box, as the layout reads it. It is written in parts: single keywords, factors and
dimensions, and whole edges. An assignment leaves a part alone that already compares as equal, and
tells whether it has changed it.

- `BoxStyle.initial`: the record of a new box.
- `Assignment`: a part and the value it is to have.
- `BoxStyle.assign`, `BoxStyle.assignAll`: the record after assignments, and whether it changed.
-/

namespace FlexStyle

/-- What the layout knows of a box. -/
structure BoxStyle where
  /-- Without a direction, a box has that of the box around it. -/
  direction : Option (Keyword .direction)
  display : Keyword .display
  position : Keyword .position
  flexDirection : Keyword .flexDirection
  flexWrap : Keyword .flexWrap
  justifyContent : Keyword .justifyContent
  alignContent : Keyword .alignContent
  alignItems : Keyword .alignItems
  alignSelf : Keyword .alignSelf
  flexGrow : Single
  flexShrink : Single
  flexBasis : Dimension
  /-- Width divided by height, if that is constrained. -/
  aspectRatio : Option Single
  margin : Edges
  padding : Edges
  border : Edges
  /-- The offsets of a box that is positioned. -/
  inset : Edges
  width : Dimension
  height : Dimension
  minWidth : Dimension
  minHeight : Dimension
  maxWidth : Dimension
  maxHeight : Dimension
  rowGap : Dimension
  columnGap : Dimension
  deriving DecidableEq, BEq

/-- The edges of a box. -/
inductive EdgeBox where
  | margin
  | padding
  | border
  | inset
  deriving DecidableEq

/-- The parts of a record that hold a keyword, apart from the direction. -/
inductive KeywordField where
  | display
  | position
  | flexDirection
  | flexWrap
  | justifyContent
  | alignContent
  | alignItems
  | alignSelf
  deriving DecidableEq

/-- The parts that hold a factor. -/
inductive FactorField where
  | flexGrow
  | flexShrink
  deriving DecidableEq

/-- The parts that hold a dimension. -/
inductive DimensionField where
  | edge (box : EdgeBox) (side : Side)
  | width
  | height
  | minWidth
  | minHeight
  | maxWidth
  | maxHeight
  | flexBasis
  | rowGap
  | columnGap
  deriving DecidableEq

/-- The enumeration that a keyword is taken from. -/
abbrev KeywordField.enumeration : KeywordField → Enumeration
  | display => .display
  | position => .position
  | flexDirection => .flexDirection
  | flexWrap => .flexWrap
  | justifyContent => .justifyContent
  | alignContent => .alignContent
  | alignItems => .alignItems
  | alignSelf => .alignSelf

namespace BoxStyle

/--
The record of a new box. On the web items stand in rows, lines are stretched and items shrink;
otherwise items are stacked, lines stand at the start and nothing shrinks.
-/
def initial (webDefaults : Bool) : BoxStyle where
  direction := none
  display := .named _ "flex"
  position := .named _ "relative"
  flexDirection := if webDefaults then .named _ "row" else .named _ "column"
  flexWrap := .named _ "nowrap"
  justifyContent := .named _ "flex-start"
  alignContent := if webDefaults then .named _ "stretch" else .named _ "flex-start"
  alignItems := .named _ "stretch"
  alignSelf := .named _ "auto"
  flexGrow := 0
  flexShrink := if webDefaults then 1 else 0
  flexBasis := .auto
  aspectRatio := none
  margin := .uniform .undefined
  padding := .uniform .undefined
  border := .uniform .undefined
  inset := .uniform .undefined
  width := .auto
  height := .auto
  minWidth := .undefined
  minHeight := .undefined
  maxWidth := .undefined
  maxHeight := .undefined
  rowGap := .undefined
  columnGap := .undefined

/-! ## The parts of a record -/

def keyword (s : BoxStyle) : (field : KeywordField) → Keyword field.enumeration
  | .display => s.display
  | .position => s.position
  | .flexDirection => s.flexDirection
  | .flexWrap => s.flexWrap
  | .justifyContent => s.justifyContent
  | .alignContent => s.alignContent
  | .alignItems => s.alignItems
  | .alignSelf => s.alignSelf

def setKeyword (s : BoxStyle) : (field : KeywordField) → Keyword field.enumeration → BoxStyle
  | .display, k => { s with display := k }
  | .position, k => { s with position := k }
  | .flexDirection, k => { s with flexDirection := k }
  | .flexWrap, k => { s with flexWrap := k }
  | .justifyContent, k => { s with justifyContent := k }
  | .alignContent, k => { s with alignContent := k }
  | .alignItems, k => { s with alignItems := k }
  | .alignSelf, k => { s with alignSelf := k }

def factor (s : BoxStyle) : FactorField → Single
  | .flexGrow => s.flexGrow
  | .flexShrink => s.flexShrink

def setFactor (s : BoxStyle) (field : FactorField) (x : Single) : BoxStyle :=
  match field with
  | .flexGrow => { s with flexGrow := x }
  | .flexShrink => { s with flexShrink := x }

def edges (s : BoxStyle) : EdgeBox → Edges
  | .margin => s.margin
  | .padding => s.padding
  | .border => s.border
  | .inset => s.inset

def setEdges (s : BoxStyle) (box : EdgeBox) (edges : Edges) : BoxStyle :=
  match box with
  | .margin => { s with margin := edges }
  | .padding => { s with padding := edges }
  | .border => { s with border := edges }
  | .inset => { s with inset := edges }

def dimension (s : BoxStyle) : DimensionField → Dimension
  | .edge box side => (s.edges box).get side
  | .width => s.width
  | .height => s.height
  | .minWidth => s.minWidth
  | .minHeight => s.minHeight
  | .maxWidth => s.maxWidth
  | .maxHeight => s.maxHeight
  | .flexBasis => s.flexBasis
  | .rowGap => s.rowGap
  | .columnGap => s.columnGap

def setDimension (s : BoxStyle) (field : DimensionField) (d : Dimension) : BoxStyle :=
  match field with
  | .edge box side => s.setEdges box ((s.edges box).set side d)
  | .width => { s with width := d }
  | .height => { s with height := d }
  | .minWidth => { s with minWidth := d }
  | .minHeight => { s with minHeight := d }
  | .maxWidth => { s with maxWidth := d }
  | .maxHeight => { s with maxHeight := d }
  | .flexBasis => { s with flexBasis := d }
  | .rowGap => { s with rowGap := d }
  | .columnGap => { s with columnGap := d }

end BoxStyle

/-! ## Assignments -/

/-- A part of a record and the value that it is to have. Edges are assigned as a whole. -/
inductive Assignment where
  | direction (value : Option (Keyword .direction))
  | keyword (field : KeywordField) (value : Keyword field.enumeration)
  | factor (field : FactorField) (value : Single)
  | aspectRatio (value : Option Single)
  | dimension (field : DimensionField) (value : Dimension)
  | edges (box : EdgeBox) (value : Edges)
  deriving DecidableEq

namespace BoxStyle

/-- Whether a part already compares as equal to the value it is to have. -/
def agrees (s : BoxStyle) : Assignment → Bool
  | .direction value => s.direction == value
  | .keyword field value => s.keyword field == value
  | .factor field value => s.factor field == value
  | .aspectRatio value => s.aspectRatio == value
  | .dimension field value => s.dimension field == value
  | .edges box value => s.edges box == value

/-- The record with one part replaced. -/
def put (s : BoxStyle) : Assignment → BoxStyle
  | .direction value => { s with direction := value }
  | .keyword field value => s.setKeyword field value
  | .factor field value => s.setFactor field value
  | .aspectRatio value => { s with aspectRatio := value }
  | .dimension field value => s.setDimension field value
  | .edges box value => s.setEdges box value

/-- The record after an assignment, and whether the part did not agree before. -/
def assign (s : BoxStyle) (a : Assignment) : BoxStyle × Bool :=
  if s.agrees a then (s, false) else (s.put a, true)

/-- The record after assignments in order, and whether any of them changed it. -/
def assignAll (s : BoxStyle) (assignments : List Assignment) : BoxStyle × Bool :=
  foldChanges assign s assignments

end BoxStyle

end FlexStyle
