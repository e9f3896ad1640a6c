import FlexStyle.Decimal.Numeral
import FlexStyle.Token.Cursor
import FlexStyle.Value

/-!
# Reading values from tokens

A reader takes the next token and says what it stands for. The token is used up also when it is
rejected; only the stroke of a ratio is put back when another token stands in its place.

- `Reader.integer`, `Reader.number`, `Reader.ratio`, `Reader.percentage`, `Reader.length`,
  `Reader.keyword`, `Reader.color`: the readers of the single kinds.
- `Reader.value`: a value of a given kind.
- `Value.ofText?`: the value that a whole text stands for.
-/

namespace FlexStyle

/-- Why no value is read. -/
inductive ReadError where
  /-- The token does not start a value of the kind. -/
  | unexpectedToken
  /-- The token is of the kind, but its number is not allowed. -/
  | outOfRange
  deriving DecidableEq

/-- What is read from the tokens after a cursor, and the cursor after them. -/
abbrev Reader (α : Type) := Cursor → Except ReadError α × Cursor

namespace Reader

/-- Reads one token, as `meaning` says. -/
def token {α : Type} (meaning : Token → Except ReadError α) : Reader α := fun cursor =>
  match cursor.next with
  | (some token, cursor) => (meaning token, cursor)
  | (none, cursor) => (.error .unexpectedToken, cursor)

/-- The number, if it may be that of a ratio, a percentage or a length. -/
def sized (x : Single) : Except ReadError Single :=
  if !x.isFinite || x < 0 then .error .outOfRange else .ok x

/-- An integer is a number without point and exponent. -/
def integer : Reader Int32 := token fun
  | .number _ (some n) => .ok n
  | _ => .error .unexpectedToken

/-- A number may be anything finite. -/
def number : Reader Single := token fun
  | .number x _ => if x.isFinite then .ok x else .error .unexpectedToken
  | _ => .error .unexpectedToken

/-- The quotient of a width and a height; only the width may be zero. -/
def quotient (width height : Single) : Except ReadError Single :=
  if width < 0 || height ≤ 0 then .error .outOfRange else .ok (width / height)

/-- A ratio is one number, or two with a stroke between them. -/
def ratio : Reader Single := fun cursor =>
  match number cursor with
  | (.error e, cursor) => (.error e, cursor)
  | (.ok width, cursor) =>
    match cursor.next with
    | (some (.delimiter '/'), cursor) =>
      match number cursor with
      | (.error e, cursor) => (.error e, cursor)
      | (.ok height, cursor) => (quotient width height, cursor)
    | _ => (quotient width 1, cursor)

/--
The number before the percent sign. It is read from what is written since the last token; only if
that is not a numeral alone, as after a comment, it is computed from the fraction of the token.
-/
def percentageOf (written : List Char) (fraction : Single) : Single :=
  let numeral? :=
    match (Text.trim Text.isBlank written).reverse with
    | '%' :: reversed => Numeral.read? .single reversed.reverse
    | _ => none
  numeral?.getD (fraction * 100)

/-- A percentage is a number followed by a percent sign. -/
def percentage : Reader Single := fun start =>
  match start.next with
  | (some (.percentage fraction), cursor) =>
    (sized (percentageOf (start.upTo cursor) fraction), cursor)
  | (_, cursor) => (.error .unexpectedToken, cursor)

/-- A length is a number with a unit, or a bare number of pixels. -/
def length : Reader (Single × LengthUnit) := token fun
  | .dimension x suffix =>
    match LengthUnit.ofSuffix? suffix with
    | some unit => (sized x).map (·, unit)
    | none => .error .unexpectedToken
  | .number x _ => (sized x).map (·, .px)
  | _ => .error .unexpectedToken

/-- A given word, without regard to case. -/
def word (expected : String) : Reader Unit := token fun
  | .word name =>
    if Text.sameIgnoringCase name expected then .ok () else .error .unexpectedToken
  | _ => .error .unexpectedToken

/-- A word of an enumeration. -/
def keyword (e : Enumeration) : Reader (Keyword e) := token fun
  | .word name =>
    match Keyword.ofName? e name with
    | some k => .ok k
    | none => .error .unexpectedToken
  | _ => .error .unexpectedToken

/-- A hash with the digits of a color. -/
def color : Reader Color := token fun
  | .hash name =>
    match Color.ofHex? ("#" ++ name) with
    | some c => .ok c
    | none => .error .unexpectedToken
  | _ => .error .unexpectedToken

/-- Applies a function to what is read. -/
def map {α β : Type} (f : α → β) (reader : Reader α) : Reader β := fun cursor =>
  let (result, cursor) := reader cursor
  (result.map f, cursor)

/-- Reads a value of the given kind. -/
def value : Kind → Reader Value
  | .none => (word "none").map fun _ => .none
  | .auto => (word "auto").map fun _ => .auto
  | .integer => integer.map .integer
  | .keyword e => (keyword e).map .keyword
  | .ratio => ratio.map .ratio
  | .percentage => percentage.map .percentage
  | .number => number.map .number
  | .length => length.map fun (x, unit) => .length x unit
  | .color => color.map .color

end Reader

/-- The value of the given kind that a text stands for, blanks at its ends left aside. -/
def Value.ofText? (kind : Kind) (text : String) : Option Value :=
  match Reader.value kind { rest := Text.trim Text.isBlank text.toList } with
  | (.ok value, cursor) => if cursor.isExhausted then some value else Option.none
  | (.error _, _) => Option.none

end FlexStyle
