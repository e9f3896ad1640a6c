import FlexStyle.Text

/-!
# Names

A CSS name is a row of letters, digits, underscores, hyphens, characters beyond ASCII and escapes.
An escape is a backslash before a character, or before up to six hexadecimal digits and one blank.
NUL, and an escape that stands for no character, read as U+FFFD.

- `Name.starts`: whether a name stands at the front of a text.
- `Name.read`: the characters of that name, and the text after it.
-/

namespace FlexStyle.Name

/-- Stands for what is not a character. -/
def replacement : Char := '\uFFFD'

def isStart (c : Char) : Bool := c.isAlpha || c = '_' || c = '\x00' || 128 ≤ c.toNat

def isPart (c : Char) : Bool := isStart c || c.isDigit || c = '-'

/-- Whether the text starts with an escape; a backslash before a newline is none. -/
def startsEscape : List Char → Bool
  | '\\' :: c :: _ => !Text.isNewline c
  | ['\\'] => true
  | _ => false

/--
Whether the text starts with a name. After a hyphen any backslash will do: before a newline it is no
escape, and the name is the hyphen alone.
-/
def starts : List Char → Bool
  | [] => false
  | '-' :: rest => rest.head?.any fun c => isStart c || c = '-' || c = '\\'
  | c :: rest => isStart c || startsEscape (c :: rest)

def isHexDigit (c : Char) : Bool :=
  c.isDigit || ('a' ≤ c && c ≤ 'f') || ('A' ≤ c && c ≤ 'F')

/-- The value of a hexadecimal digit. -/
def hexDigit (c : Char) : Nat :=
  if c.isDigit then c.toNat - '0'.toNat else c.toLower.toNat - 'a'.toNat + 10

/-- The value of a row of hexadecimal digits. -/
def hexNumber (digits : List Char) : Nat :=
  digits.foldl (fun sum c => 16 * sum + hexDigit c) 0

/-- The character with a given number, if there is one and it is not NUL. -/
def character (number : Nat) : Char :=
  if number.isValidChar && number != 0 then Char.ofNat number else replacement

/-- Drops one blank; carriage return and line feed together are one. -/
def dropSpace : List Char → List Char
  | '\r' :: '\n' :: rest => rest
  | c :: rest => if Text.isSpace c then rest else c :: rest
  | [] => []

/-- The character of an escape whose backslash has been read, and the text after it. -/
def readEscape : List Char → Char × List Char
  | [] => (replacement, [])
  | c :: rest =>
    if isHexDigit c then
      let digits := ((c :: rest).take 6).takeWhile isHexDigit
      (character (hexNumber digits), dropSpace ((c :: rest).drop digits.length))
    else (if c = '\x00' then replacement else c, rest)

theorem length_dropSpace_le (text : List Char) : (dropSpace text).length ≤ text.length := by
  unfold dropSpace
  split
  · simp only [List.length_cons]
    omega
  · split <;> simp
  · exact Nat.le_refl _

theorem length_readEscape_le (text : List Char) : (readEscape text).2.length ≤ text.length := by
  unfold readEscape
  split
  · exact Nat.le_refl _
  · split
    · refine Nat.le_trans (length_dropSpace_le _) ?_
      simp only [List.length_drop]
      omega
    · simp

/-- The characters of the name at the front of a text, and the text after it. -/
def read : List Char → List Char × List Char
  | [] => ([], [])
  | c :: rest =>
    if isPart c then
      let (name, after) := read rest
      ((if c = '\x00' then replacement else c) :: name, after)
    else if startsEscape (c :: rest) then
      let (name, after) := read (readEscape rest).2
      ((readEscape rest).1 :: name, after)
    else ([], c :: rest)
termination_by text => text.length
decreasing_by
  · simp
  · exact Nat.lt_succ_of_le (length_readEscape_le rest)

theorem length_read_le (text : List Char) : (read text).2.length ≤ text.length := by
  fun_induction read text with
  | case1 => exact Nat.le_refl _
  | case2 c rest _ name after eq ih =>
    rw [eq] at ih
    exact Nat.le_succ_of_le ih
  | case3 c rest _ _ name after eq ih =>
    rw [eq] at ih
    exact Nat.le_succ_of_le (Nat.le_trans ih (length_readEscape_le rest))
  | case4 => exact Nat.le_refl _

/-- Where a name starts, reading it takes something away. -/
theorem length_read_lt {text : List Char} (h : starts text = true) :
    (read text).2.length < text.length := by
  cases text with
  | nil => simp [starts] at h
  | cons c rest =>
    have starting : isPart c = true ∨ startsEscape (c :: rest) = true := by
      unfold starts at h
      split at h
      · contradiction
      · rename_i eq
        cases eq
        exact Or.inl (by decide)
      · rename_i eq
        cases eq
        rcases Bool.or_eq_true_iff.1 h with h | h
        · exact Or.inl (by simp [isPart, h])
        · exact Or.inr h
    rw [read]
    split
    · exact Nat.lt_succ_of_le (length_read_le rest)
    · split
      · exact Nat.lt_succ_of_le (Nat.le_trans (length_read_le _) (length_readEscape_le rest))
      · simp_all

end FlexStyle.Name
