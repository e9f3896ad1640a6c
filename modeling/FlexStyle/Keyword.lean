import FlexStyle.Text

/-!
# Keywords

Some properties take a word from a closed enumeration. A keyword of an enumeration is a place in
its table of names; names are looked up without regard to case.

- `Enumeration.names`: the table of an enumeration.
- `Keyword.ofName?`, `Keyword.ofOrdinal?`: a keyword from its name or its place.
- `Keyword.as?`: a keyword of one enumeration, seen as one of another: only if they are the same.
-/

namespace FlexStyle

/-- The closed enumerations of words. -/
inductive Enumeration where
  | alignContent
  | alignItems
  | alignSelf
  | direction
  | display
  | flexDirection
  | flexWrap
  | justifyContent
  | position
  | textAlign
  deriving DecidableEq

namespace Enumeration

/-- The words of an enumeration, in order. -/
def names : Enumeration → List String
  | alignContent =>
    ["center", "flex-start", "flex-end", "start", "end", "space-between", "space-around",
      "space-evenly", "stretch"]
  | alignItems => ["center", "flex-start", "flex-end", "start", "end", "stretch", "baseline"]
  | alignSelf =>
    ["auto", "center", "flex-start", "flex-end", "start", "end", "stretch", "baseline"]
  | direction => ["ltr", "rtl"]
  | display => ["flex", "none"]
  | flexDirection => ["row", "row-reverse", "column", "column-reverse"]
  | flexWrap => ["nowrap", "wrap", "wrap-reverse"]
  | justifyContent =>
    ["center", "start", "end", "flex-start", "flex-end", "space-between", "space-around",
      "space-evenly"]
  | position => ["static", "relative", "absolute"]
  | textAlign => ["start", "end", "left", "right", "center"]

end Enumeration

/-- A word of an enumeration, by its place in the table of names. -/
structure Keyword (e : Enumeration) where
  place : Fin e.names.length
  deriving DecidableEq

namespace Keyword

variable {e : Enumeration}

/-- The place of a keyword, counted from zero. -/
def ordinal (k : Keyword e) : Nat := k.place.val

/-- The word itself. -/
def name (k : Keyword e) : String := e.names[k.place]

/-- The keyword at a place, if the table reaches that far. -/
def ofOrdinal? (e : Enumeration) (ordinal : Nat) : Option (Keyword e) :=
  if h : ordinal < e.names.length then some ⟨⟨ordinal, h⟩⟩ else none

/-- The keyword with a given name. -/
def ofName? (e : Enumeration) (name : String) : Option (Keyword e) :=
  (e.names.findFinIdx? (Text.sameIgnoringCase name)).map Keyword.mk

/-- The keyword of a word that stands in the table. -/
def named (e : Enumeration) (name : String) (known : name ∈ e.names := by decide) : Keyword e :=
  ⟨⟨e.names.idxOf name, List.idxOf_lt_length_of_mem known⟩⟩

/-- The same keyword as one of enumeration `e'`, if that is its own. -/
def as? (e' : Enumeration) (k : Keyword e) : Option (Keyword e') :=
  if h : e = e' then some (h ▸ k) else none

end Keyword

end FlexStyle
