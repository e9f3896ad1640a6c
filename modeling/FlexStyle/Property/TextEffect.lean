import FlexStyle.Property
import FlexStyle.TextStyle

/-!
# What properties write to a text style

Three properties define the text style of a node. With a value, such a property stands for the
assignment of one part; without one, for the assignment that gives the part its inherited value.

- `Property.fontSizeOf?`: the font size that a value stands for.
- `Property.textAssignment?`, `Property.textReset?`: the assignments of a property.
-/

namespace FlexStyle

namespace Property

/--
The font size that a value stands for. A percentage is one of the inherited size; a length is
measured at the inherited size, in the font of the node itself.
-/
def fontSizeOf? (fonts : Fonts) (inherited : TextStyle) (font : FontId) : Value → Option Single
  | .length x unit => some (unit.toPixels ({ inherited with font }.metrics fonts) x)
  | .percentage x => some (inherited.size * x / 100)
  | _ => none

/-- The assignment to the text style that a property with values stands for. -/
def textAssignment? (fonts : Fonts) (inherited : TextStyle) (font : FontId) (p : Property)
    (values : List Value) : Option TextAssignment :=
  match p with
  | fontSize => (values.head?.bind (fontSizeOf? fonts inherited font)).map .size
  | lineHeight => (values.head?.bind (·.asNumber?)).map .lineHeight
  | textAlign => (values.head?.bind (·.asKeyword? .textAlign)).map .align
  | _ => none

/-- The assignment that gives the part of a property its inherited value. -/
def textReset? (inherited : TextStyle) : Property → Option TextAssignment
  | fontSize => some (.size inherited.size)
  | lineHeight => some (.lineHeight inherited.lineHeight)
  | textAlign => some (.align inherited.align)
  | _ => none

end Property

end FlexStyle
