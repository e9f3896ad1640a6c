import FlexStyle.Binary

/-!
# Tokens

The tokens that CSS text is made of. Values are built from words, hashes and the three tokens that
start with a number; the others only have an extent, and may open or close a block.

- `Token.opens?`, `Token.closes?`: the bracket that a token opens or closes.
-/

namespace FlexStyle

/-- The kinds of brackets that enclose a block. -/
inductive Bracket where
  | round
  | square
  | curly
  deriving DecidableEq

/-- A token of CSS text. Names and units are given with their escapes resolved. -/
inductive Token where
  /-- Blanks, or a comment. -/
  | blank
  | word (name : String)
  /-- A name directly followed by an opening bracket. -/
  | function (name : String)
  | atWord (name : String)
  | hash (name : String)
  /-- A bare number, and its integer value if it has neither a point nor an exponent. -/
  | number (value : Single) (integer : Option Int32)
  /-- A number followed by a percent sign, divided by a hundred. -/
  | percentage (fraction : Single)
  | dimension (value : Single) (unit : String)
  /-- A text in quotes, closed or broken off. -/
  | quoted
  /-- An address that is not in quotes, well formed or not. -/
  | address
  | symbol (text : String)
  | delimiter (c : Char)
  | opening (bracket : Bracket)
  | closing (bracket : Bracket)
  deriving DecidableEq

namespace Token

/-- The bracket of the block that a token opens. -/
def opens? : Token → Option Bracket
  | function _ => some .round
  | opening bracket => some bracket
  | _ => none

/-- The bracket of the block that a token closes. -/
def closes? : Token → Option Bracket
  | closing bracket => some bracket
  | _ => none

end Token

end FlexStyle
