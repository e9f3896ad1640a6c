import FlexStyle.Token.Name

/-!
# Extents of comments, quoted texts and addresses

No value is made of these tokens, so only the text after them is computed. Each runs to its closing
mark, or to the end of the text if the mark is missing.

- `Extent.afterComment`: up to the star and slash.
- `Extent.afterQuoted`: up to the quote, or before a newline that is not escaped.
- `Extent.afterAddress?`: up to the bracket; a quote at the front means that it is no address.
-/

namespace FlexStyle.Extent

/-- The text after a comment whose opening mark has been read. -/
def afterComment : List Char → List Char
  | [] => []
  | '*' :: '/' :: rest => rest
  | _ :: rest => afterComment rest

theorem length_afterComment_le (text : List Char) :
    (afterComment text).length ≤ text.length := by
  fun_induction afterComment text with
  | case1 => exact Nat.le_refl _
  | case2 rest => simp only [List.length_cons]; omega
  | case3 _ rest _ ih => exact Nat.le_succ_of_le ih

/-- The text after the escape, or escaped newline, whose backslash has been read. -/
def afterEscaped : List Char → List Char
  | [] => []
  | c :: rest =>
    if Text.isNewline c then Name.dropSpace (c :: rest) else (Name.readEscape (c :: rest)).2

theorem length_afterEscaped_le (text : List Char) :
    (afterEscaped text).length ≤ text.length := by
  unfold afterEscaped
  split
  · exact Nat.le_refl _
  · split
    · exact Name.length_dropSpace_le _
    · exact Name.length_readEscape_le _

/-- The text after a quoted text whose opening quote has been read. -/
def afterQuoted (quote : Char) : List Char → List Char
  | [] => []
  | c :: rest =>
    if c = quote then rest
    else if Text.isNewline c then c :: rest
    else if c = '\\' then afterQuoted quote (afterEscaped rest)
    else afterQuoted quote rest
termination_by text => text.length
decreasing_by
  · exact Nat.lt_succ_of_le (length_afterEscaped_le rest)
  · exact Nat.lt_succ_self _

theorem length_afterQuoted_le (quote : Char) (text : List Char) :
    (afterQuoted quote text).length ≤ text.length := by
  fun_induction afterQuoted quote text with
  | case1 => exact Nat.le_refl _
  | case2 rest => exact Nat.le_succ _
  | case3 => exact Nat.le_refl _
  | case4 rest _ _ ih => exact Nat.le_succ_of_le (Nat.le_trans ih (length_afterEscaped_le rest))
  | case5 c rest _ _ _ ih => exact Nat.le_succ_of_le ih

/-! ## Addresses -/

def isQuote (c : Char) : Bool := c = '\x22' || c = '\x27'

/-- The characters that make an address malformed: controls, quotes and the opening bracket. -/
def isBarred (c : Char) : Bool :=
  let n := c.toNat
  (1 ≤ n && n ≤ 8) || n = 0x0B || (0x0E ≤ n && n ≤ 0x1F) || n = 0x7F || isQuote c || c = '('

/-- The text after a malformed address; an escaped bracket does not close it. -/
def afterMalformed : List Char → List Char
  | [] => []
  | ')' :: rest => rest
  | '\\' :: ')' :: rest => afterMalformed rest
  | '\\' :: '\\' :: rest => afterMalformed rest
  | _ :: rest => afterMalformed rest

theorem length_afterMalformed_le (text : List Char) :
    (afterMalformed text).length ≤ text.length := by
  fun_induction afterMalformed text with
  | case1 => exact Nat.le_refl _
  | case2 rest => exact Nat.le_succ _
  | case3 rest ih => simp only [List.length_cons]; omega
  | case4 rest ih => simp only [List.length_cons]; omega
  | case5 _ rest _ _ _ ih => exact Nat.le_succ_of_le ih

/-- The text after the blanks that end an address; only the bracket may follow them. -/
def afterAddressBlanks (text : List Char) : List Char :=
  match text.dropWhile Text.isSpace with
  | [] => []
  | ')' :: rest => rest
  | _ :: rest => afterMalformed rest

theorem length_afterAddressBlanks_le (text : List Char) :
    (afterAddressBlanks text).length ≤ text.length := by
  have shorter : (text.dropWhile Text.isSpace).length ≤ text.length :=
    (List.dropWhile_sublist _).length_le
  unfold afterAddressBlanks
  split
  · exact Nat.zero_le _
  · rename_i eq
    rw [eq] at shorter
    exact Nat.le_of_succ_le shorter
  · rename_i rest _ eq
    rw [eq] at shorter
    exact Nat.le_trans (length_afterMalformed_le rest) (Nat.le_of_succ_le shorter)

/-- The text after an address whose first character is at the front. -/
def afterAddressText : List Char → List Char
  | [] => []
  | c :: rest =>
    if Text.isSpace c then afterAddressBlanks rest
    else if c = ')' then rest
    else if isBarred c then afterMalformed rest
    else if c = '\\' then
      if rest.head?.any Text.isNewline then afterMalformed rest
      else afterAddressText (Name.readEscape rest).2
    else afterAddressText rest
termination_by text => text.length
decreasing_by
  · exact Nat.lt_succ_of_le (Name.length_readEscape_le rest)
  · exact Nat.lt_succ_self _

theorem length_afterAddressText_le (text : List Char) :
    (afterAddressText text).length ≤ text.length := by
  fun_induction afterAddressText text with
  | case1 => exact Nat.le_refl _
  | case2 c rest => exact Nat.le_succ_of_le (length_afterAddressBlanks_le rest)
  | case3 rest => exact Nat.le_succ _
  | case4 c rest => exact Nat.le_succ_of_le (length_afterMalformed_le rest)
  | case5 rest => exact Nat.le_succ_of_le (length_afterMalformed_le rest)
  | case6 rest _ _ _ _ ih =>
    exact Nat.le_succ_of_le (Nat.le_trans ih (Name.length_readEscape_le rest))
  | case7 c rest _ _ _ _ ih => exact Nat.le_succ_of_le ih

/-- The text after an address whose opening bracket has been read; none before a quote. -/
def afterAddress? (text : List Char) : Option (List Char) :=
  match text.dropWhile Text.isSpace with
  | [] => some []
  | ')' :: rest => some rest
  | c :: rest => if isQuote c then none else some (afterAddressText (c :: rest))

theorem length_afterAddress_le {text rest : List Char} (h : afterAddress? text = some rest) :
    rest.length ≤ text.length := by
  have shorter : (text.dropWhile Text.isSpace).length ≤ text.length :=
    (List.dropWhile_sublist _).length_le
  unfold afterAddress? at h
  split at h
  · cases h
    exact Nat.zero_le _
  · rename_i eq
    cases h
    rw [eq] at shorter
    exact Nat.le_of_succ_le shorter
  · rename_i eq
    split at h
    · contradiction
    · cases h
      rw [eq] at shorter
      exact Nat.le_trans (length_afterAddressText_le _) shorter

end FlexStyle.Extent
