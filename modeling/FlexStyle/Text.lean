/-!
# Characters and pieces of text

Two classes of blanks are in use. Values given as a whole are trimmed of every blank of Unicode;
declarations are trimmed of, and lists of arguments are split at, the five blanks of CSS. Names are
compared without regard to the case of the letters `A` to `Z`; other letters always differ.

- `Text.isBlank`, `Text.isSpace`: the two classes.
- `Text.trim`: a text without the characters of a class at its ends.
- `Text.words`: the pieces of a text between spaces.
- `Text.lower`, `Text.sameIgnoringCase`: names without regard to case.
-/

namespace FlexStyle.Text

/-- The characters with the property White_Space. -/
def isBlank (c : Char) : Bool :=
  let n := c.toNat
  (9 ≤ n && n ≤ 13) || n = 0x20 || n = 0x85 || n = 0xA0 || n = 0x1680 ||
    (0x2000 ≤ n && n ≤ 0x200A) || n = 0x2028 || n = 0x2029 || n = 0x202F || n = 0x205F ||
    n = 0x3000

/-- Line feed, form feed and carriage return. -/
def isNewline (c : Char) : Bool := c = '\n' || c = '\x0c' || c = '\r'

/-- The blanks of CSS: tab, space and the newlines. -/
def isSpace (c : Char) : Bool := c = ' ' || c = '\t' || isNewline c

theorem isBlank_of_isSpace {c : Char} (h : isSpace c = true) : isBlank c = true := by
  simp only [isSpace, isNewline, Bool.or_eq_true, decide_eq_true_eq] at h
  rcases h with (rfl | rfl) | (rfl | rfl) | rfl <;> decide

/-- The text without the characters of class `p` at its ends. -/
def trim (p : Char → Bool) (text : List Char) : List Char :=
  ((text.dropWhile p).reverse.dropWhile p).reverse

/-- The longest pieces of a text without a space. -/
def words (text : List Char) : List (List Char) :=
  (text.splitOnP isSpace).filter (!·.isEmpty)

/-- The text with `A` to `Z` replaced by `a` to `z`. -/
def lower (text : String) : String := text.map Char.toLower

/-- Whether two texts agree but for the case of the letters `A` to `Z`. -/
def sameIgnoringCase (a b : String) : Bool := lower a = lower b

/-- The number of bytes that a text takes. -/
def byteLength (text : List Char) : Nat := text.foldl (fun bytes c => bytes + c.utf8Size) 0

end FlexStyle.Text
