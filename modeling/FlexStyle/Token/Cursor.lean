import FlexStyle.Token.Lexer

/-!
# Reading tokens one after another

A cursor stands between two tokens of a text. If the token before it has opened a block, the whole
block is passed over before the next token is read.

- `Cursor.next`: the next token that is not blank, and the cursor after it.
- `Cursor.isExhausted`: whether no such token is left.
-/

namespace FlexStyle

/-- A place in a text: what is left of it, and the block that has just been opened. -/
structure Cursor where
  rest : List Char
  opened : Option Bracket := none

namespace Cursor

/-- The text from which the next token is read. -/
def ahead (cursor : Cursor) : List Char :=
  match cursor.opened with
  | some bracket => Token.skipBlock [bracket] cursor.rest
  | none => cursor.rest

/-- The next token, and the cursor after it; there is none at the end of the text. -/
def next (cursor : Cursor) : Option Token × Cursor :=
  match Token.next cursor.ahead with
  | some (token, rest) => (some token, ⟨rest, token.opens?⟩)
  | none => (none, ⟨[], none⟩)

/-- Whether no token is left. -/
def isExhausted (cursor : Cursor) : Bool := cursor.next.1.isNone

/-- The characters between two cursors of one text. -/
def upTo (start stop : Cursor) : List Char :=
  start.rest.take (start.rest.length - stop.rest.length)

end Cursor

end FlexStyle
