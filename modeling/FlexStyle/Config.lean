import FlexStyle.Decimal.Numeral
import FlexStyle.Keyword

/-!
# Configuration

What a style tree starts from: which initial boxes it uses, and the text style that its roots
inherit. Sizes are positive by construction.

- `Config.new`: a configuration whose sizes fall back to the defaults if they are not positive.
- `Config.ofVariables`: the configuration that the variables of an environment ask for.
-/

namespace FlexStyle

/-- The starting point of a style tree. -/
structure Config where
  /-- Whether boxes start as they do on the web. -/
  webDefaults : Bool
  /-- The font size of a root, in pixels. -/
  fontSize : Single
  /-- The line height of a root, as a multiple of the font size. -/
  lineHeight : Single
  textAlign : Keyword .textAlign
  fontSize_pos : 0 < fontSize
  lineHeight_pos : 0 < lineHeight
  deriving DecidableEq

namespace Config

def defaultFontSize : Single := 16

/-- Six fifths of the font size. -/
def defaultLineHeight : Single := .ofRatio 6 5

def defaultTextAlign : Keyword .textAlign := .named _ "start"

/-- A number if it is positive, and another one otherwise. -/
def positiveOr (fallback x : Single) : Single := if 0 < x then x else fallback

theorem positiveOr_pos {fallback : Single} (h : 0 < fallback) (x : Single) :
    0 < positiveOr fallback x := by
  unfold positiveOr
  split
  · assumption
  · exact h

/-- The configuration with the given settings; a size that is not positive is not used. -/
def new (webDefaults : Bool) (fontSize lineHeight : Single) (textAlign : Keyword .textAlign) :
    Config where
  webDefaults
  fontSize := positiveOr defaultFontSize fontSize
  lineHeight := positiveOr defaultLineHeight lineHeight
  textAlign
  fontSize_pos := positiveOr_pos (by decide) fontSize
  lineHeight_pos := positiveOr_pos (by decide) lineHeight

/-- The configuration without any settings. -/
def default : Config := new true defaultFontSize defaultLineHeight defaultTextAlign

/-- The positive finite number that a setting holds, if it holds one. -/
def size? (setting : String) : Option Single :=
  (Numeral.read? .single (Text.trim Text.isBlank setting.toList)).filter fun x =>
    x.isFinite && 0 < x

/-- The alignment that a setting names, if it names one. -/
def textAlign? (setting : String) : Option (Keyword .textAlign) :=
  Keyword.ofName? .textAlign (String.ofList (Text.trim Text.isBlank setting.toList))

/--
The configuration of an environment, given as the settings of its variables. A variable that is
not set, or that holds nothing useful, stands for its default; web defaults end only with `0`.
-/
def ofVariables (setting? : String → Option String) : Config :=
  new (setting? "STYLE_WEB_DEFAULTS" != some "0")
    (((setting? "STYLE_FONT_SIZE").bind size?).getD defaultFontSize)
    (((setting? "STYLE_LINE_HEIGHT").bind size?).getD defaultLineHeight)
    (((setting? "STYLE_TEXT_ALIGN").bind textAlign?).getD defaultTextAlign)

end Config

end FlexStyle
