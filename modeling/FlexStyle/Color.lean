import FlexStyle.Text
import FlexStyle.Token.Name

/-!
# Colors

A color has three channels and an opacity of eight bits each, and is written in hexadecimal digits
after a hash: two to a channel, or one that counts twice.

- `Color.text`: the digits of a color; those of the opacity only if it is not full.
- `Color.ofHex?`: the color that a text stands for.
-/

namespace FlexStyle

/-- A color of 32 bits. -/
structure Color where
  red : UInt8
  green : UInt8
  blue : UInt8
  alpha : UInt8 := 255
  deriving DecidableEq

namespace Color

/-- A channel as two digits. -/
def channelText (channel : UInt8) : List Char :=
  [Nat.digitChar (channel.toNat / 16), Nat.digitChar (channel.toNat % 16)]

/-- A color as digits after a hash. -/
def text (color : Color) : String :=
  String.ofList <| '#' :: channelText color.red ++ channelText color.green ++
    channelText color.blue ++ if color.alpha = 255 then [] else channelText color.alpha

/-- The channel of two digits. -/
def channel (high low : Char) : UInt8 := .ofNat (Name.hexNumber [high, low])

/-- The color of three, four, six or eight digits. -/
def ofDigits? : List Char → Option Color
  | [r, g, b] => some ⟨channel r r, channel g g, channel b b, 255⟩
  | [r, g, b, a] => some ⟨channel r r, channel g g, channel b b, channel a a⟩
  | [r, r', g, g', b, b'] => some ⟨channel r r', channel g g', channel b b', 255⟩
  | [r, r', g, g', b, b', a, a'] =>
    some ⟨channel r r', channel g g', channel b b', channel a a'⟩
  | _ => none

/-- The color of a text of digits after a hash; blanks may surround it. -/
def ofHex? (text : String) : Option Color :=
  match Text.trim Text.isBlank text.toList with
  | '#' :: digits => if digits.all Name.isHexDigit then ofDigits? digits else none
  | _ => none

end Color

end FlexStyle
