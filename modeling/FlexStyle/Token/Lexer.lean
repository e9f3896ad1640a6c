import FlexStyle.Token.Extent
import FlexStyle.Token.Number

/-!
# From text to tokens

- `Token.scan`: the token at the front of a text, and the text after it. There is one in front of
  every text that is not empty, and it takes at least one character away (`Token.length_scan_lt`).
- `Token.next`: the same for the first token that is not blank.
- `Token.list`: all tokens of a text but the blank ones.
- `Token.skipBlock`: the text after the block that was opened last.
-/

namespace FlexStyle.Token

/-- The brackets as tokens. -/
def bracket? (c : Char) : Option Token :=
  if c = '(' then some (.opening .round)
  else if c = '[' then some (.opening .square)
  else if c = '\x7b' then some (.opening .curly)
  else if c = ')' then some (.closing .round)
  else if c = ']' then some (.closing .square)
  else if c = '\x7d' then some (.closing .curly)
  else none

/-- The tokens of fixed characters. -/
def symbols : List String := ["<!--", "-->", "$=", "*=", "^=", "~=", "|=", ",", ":", ";"]

/-- The symbol at the front of a text. -/
def symbol? (text : List Char) : Option String :=
  symbols.find? fun mark => mark.toList.isPrefixOf text

/-- The token of the name at the front of a text, and the text after it. -/
def readWord (text : List Char) : Token × List Char :=
  let (name, rest) := Name.read text
  let name := String.ofList name
  match rest with
  | '(' :: rest =>
    if Text.sameIgnoringCase name "url" then
      match Extent.afterAddress? rest with
      | some rest => (.address, rest)
      | none => (.function name, rest)
    else (.function name, rest)
  | rest => (.word name, rest)

/-- The token that starts with the character `c`, and the text after it. -/
def scanFrom (c : Char) (rest : List Char) : Token × List Char :=
  if Text.isSpace c then (.blank, rest.dropWhile Text.isSpace)
  else if c = '/' && rest.head? = some '*' then (.blank, Extent.afterComment rest.tail)
  else if Extent.isQuote c then (.quoted, Extent.afterQuoted c rest)
  else if Number.starts (c :: rest) then Number.read (c :: rest)
  else if c = '#' && (Name.starts rest || rest.head?.any fun d => d.isDigit || d = '-') then
    let (name, rest) := Name.read rest
    (.hash (String.ofList name), rest)
  else if c = '@' && Name.starts rest then
    let (name, rest) := Name.read rest
    (.atWord (String.ofList name), rest)
  else
    match symbol? (c :: rest), bracket? c with
    | some mark, _ => (.symbol mark, rest.drop (mark.length - 1))
    | none, some token => (token, rest)
    | none, none =>
      if Name.starts (c :: rest) then readWord (c :: rest) else (.delimiter c, rest)

/-- The token at the front of a text, and the text after it. -/
def scan : List Char → Option (Token × List Char)
  | [] => none
  | c :: rest => some (scanFrom c rest)

theorem length_readWord_lt {text : List Char} (h : Name.starts text = true) :
    (readWord text).2.length < text.length := by
  have name := Name.length_read_lt h
  unfold readWord
  simp only
  split
  · rename_i rest eq
    rw [eq] at name
    have shorter : rest.length < text.length := Nat.lt_of_succ_lt name
    split
    · split
      · rename_i address
        exact Nat.lt_of_le_of_lt (Extent.length_afterAddress_le address) shorter
      · exact shorter
    · exact shorter
  · exact name

theorem length_scanFrom_lt (c : Char) (rest : List Char) :
    (scanFrom c rest).2.length < (c :: rest).length := by
  unfold scanFrom
  split
  · exact Nat.lt_succ_of_le (List.dropWhile_sublist _).length_le
  · split
    · refine Nat.lt_succ_of_le (Nat.le_trans (Extent.length_afterComment_le _) ?_)
      simp
    · split
      · exact Nat.lt_succ_of_le (Extent.length_afterQuoted_le _ _)
      · split
        · rename_i number
          exact Number.length_read_lt number
        · split
          · exact Nat.lt_succ_of_le (Name.length_read_le _)
          · split
            · exact Nat.lt_succ_of_le (Name.length_read_le _)
            · split
              · simp only [List.length_drop, List.length_cons]
                omega
              · exact Nat.lt_succ_self _
              · split
                · rename_i name
                  exact length_readWord_lt name
                · exact Nat.lt_succ_self _

/-- Scanning a token takes something away. -/
theorem length_scan_lt {text rest : List Char} {token : Token}
    (h : scan text = some (token, rest)) : rest.length < text.length := by
  cases text with
  | nil => contradiction
  | cons c after =>
    have := length_scanFrom_lt c after
    simp only [scan, Option.some.injEq] at h
    rwa [h] at this

/-- The first token that is not blank, and the text after it. -/
def next (text : List Char) : Option (Token × List Char) :=
  match _h : scan text with
  | none => none
  | some (.blank, rest) => next rest
  | some (token, rest) => some (token, rest)
termination_by text.length
decreasing_by exact length_scan_lt _h

theorem length_next_lt {text rest : List Char} {token : Token}
    (h : next text = some (token, rest)) : rest.length < text.length := by
  fun_induction next text with
  | case1 => contradiction
  | case2 text after eq ih => exact Nat.lt_trans (ih h) (length_scan_lt eq)
  | case3 text token' after _ eq =>
    cases h
    exact length_scan_lt eq

/-- The tokens of a text that are not blank. -/
def list (text : List Char) : List Token :=
  match _h : next text with
  | none => []
  | some (token, rest) => token :: list rest
termination_by text.length
decreasing_by exact length_next_lt _h

/-- The blocks that are open after a token; a closing bracket has to fit the innermost one. -/
def openAfter (token : Token) (blocks : List Bracket) : List Bracket :=
  match token.opens?, token.closes? with
  | some bracket, _ => bracket :: blocks
  | none, some bracket => if blocks.head? = some bracket then blocks.tail else blocks
  | none, none => blocks

/-- The text after the token that closes all open blocks. -/
def skipBlock (blocks : List Bracket) (text : List Char) : List Char :=
  match _h : scan text with
  | none => []
  | some (token, rest) =>
    match openAfter token blocks with
    | [] => rest
    | blocks => skipBlock blocks rest
termination_by text.length
decreasing_by exact length_scan_lt _h

end FlexStyle.Token
