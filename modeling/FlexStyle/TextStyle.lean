import FlexStyle.Change
import FlexStyle.Config
import FlexStyle.Length

/-!
# Text styles

The text style of a node is what its descendants inherit: a font, its size, the line height and the
alignment. Relative lengths are measured with it.

- `FontMetrics`: what a font measures at its native size; `FontMetrics.fixed` is the built-in font.
- `TextStyle.root`: the text style that a root inherits.
- `TextStyle.metrics`: what the relative units of length stand for.
- `TextAssignment`, `TextStyle.assign`: a part of a text style and the value it is to have.
-/

namespace FlexStyle

/-- The natural measures of a font. -/
structure FontMetrics where
  /-- The size at which all measures are taken. -/
  nativeSize : Single
  /-- The distance of two lines. -/
  lineHeight : Single
  /-- The width that a character takes. -/
  advance : Char → Single
  /-- The height of the ink of a character. -/
  glyphHeight : Char → Single

/-- Whether a character takes the width of an ideograph. -/
def isWide (c : Char) : Bool :=
  let n := c.toNat
  (0x2E80 ≤ n && n ≤ 0xA4CF) || (0xAC00 ≤ n && n ≤ 0xD7A3) || (0xF900 ≤ n && n ≤ 0xFAFF) ||
    (0xFF00 ≤ n && n ≤ 0xFF60)

/-- The built-in font: wide characters fill a square, all others half of it each way. -/
def FontMetrics.fixed (size : Single) : FontMetrics where
  nativeSize := size
  lineHeight := size * .ofRatio 6 5
  advance c := if isWide c then size else size * .ofRatio 1 2
  glyphHeight c := if isWide c then size else size * .ofRatio 1 2

/-- The name of a font. Fonts are the same only if their names are. -/
inductive FontId where
  /-- The font of a tree whose host gives none. -/
  | builtIn
  | host (number : Nat)
  deriving DecidableEq

/-- The fonts that are at hand. -/
def Fonts := FontId → FontMetrics

instance : CoeFun Fonts fun _ => FontId → FontMetrics := ⟨id⟩

/-- The fonts of a host, and the built-in font in the configured size. -/
def Fonts.ofHost (config : Config) (host : Nat → FontMetrics) : Fonts
  | .builtIn => .fixed config.fontSize
  | .host number => host number

/-- The properties of text that a node hands down. -/
structure TextStyle where
  font : FontId
  /-- The font size in pixels. -/
  size : Single
  /-- The line height as a multiple of that of the font. -/
  lineHeight : Single
  align : Keyword .textAlign
  deriving DecidableEq

namespace TextStyle

/-- The text style that a node without parent inherits. -/
def root (config : Config) (font : FontId) : TextStyle where
  font
  size := config.fontSize
  lineHeight := config.lineHeight
  align := config.textAlign

/-- The factor from the native measures of the font; one if it has no positive native size. -/
def scale (s : TextStyle) (fonts : Fonts) : Single :=
  let native := (fonts s.font).nativeSize
  if 0 < native then s.size / native else 1

/-- The measures in pixels of the font at this size. -/
def metrics (s : TextStyle) (fonts : Fonts) : RelativeMetrics where
  fontSize := s.size
  zeroAdvance := (fonts s.font).advance '0' * s.scale fonts
  xHeight := (fonts s.font).glyphHeight 'x' * s.scale fonts
  ideographAdvance := (fonts s.font).advance '水' * s.scale fonts
  lineHeight := (fonts s.font).lineHeight * s.scale fonts * s.lineHeight

end TextStyle

/-- A part of the text style and the value that it is to have. -/
inductive TextAssignment where
  | size (value : Single)
  | lineHeight (value : Single)
  | align (value : Keyword .textAlign)
  deriving DecidableEq

namespace TextStyle

/-- Whether a part already compares as equal to the value it is to have. -/
def agrees (s : TextStyle) : TextAssignment → Bool
  | .size value => s.size == value
  | .lineHeight value => s.lineHeight == value
  | .align value => s.align == value

/-- The text style with one part replaced. -/
def put (s : TextStyle) : TextAssignment → TextStyle
  | .size value => { s with size := value }
  | .lineHeight value => { s with lineHeight := value }
  | .align value => { s with align := value }

/-- The text style after an assignment, and whether the part did not agree before. -/
def assign (s : TextStyle) (a : TextAssignment) : TextStyle × Bool :=
  if s.agrees a then (s, false) else (s.put a, true)

end TextStyle

end FlexStyle
