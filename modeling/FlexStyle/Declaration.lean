import FlexStyle.Text

/-!
# Declarations

The inline form of a style is a list of CSS declarations `name: value;`. Items end at semicolons,
and the first colon of an item ends its name. An item without a colon, a name or a value is left
out.

- `Declaration.list`: the declarations of a text.
- `Declaration.text`: the text of a list of declarations.
-/

namespace FlexStyle

/-- A property name and the text of its value. -/
structure Declaration where
  property : String
  value : String
  deriving DecidableEq

namespace Declaration

/-- The declaration with spaces trimmed away and the name in lower case. -/
def tidy (property value : List Char) : Declaration where
  property := Text.lower (String.ofList (Text.trim Text.isSpace property))
  value := String.ofList (Text.trim Text.isSpace value)

/-- The declaration of one item. -/
def ofItem? (item : List Char) : Option Declaration :=
  match item.dropWhile (· != ':') with
  | [] => none
  | _ :: value =>
    let declaration := tidy (item.takeWhile (· != ':')) value
    if declaration.property.isEmpty || declaration.value.isEmpty then none else some declaration

/-- The declarations of a text, in order; of a name that is declared twice, both. -/
def list (text : String) : List Declaration := (text.toList.splitOn ';').filterMap ofItem?

/-- A declaration with the semicolon that ends it. -/
def item (declaration : Declaration) : String :=
  declaration.property ++ ": " ++ declaration.value ++ ";"

/-- The text of a list of declarations, with a space between two. -/
def text (declarations : List Declaration) : String := " ".intercalate (declarations.map item)

end Declaration

end FlexStyle
