import FlexStyle.Color
import FlexStyle.Decimal.Shortest
import FlexStyle.Keyword
import FlexStyle.Length

/-!
# Style values

A value is one datum of a property. Values are compared by `==`, which compares the numbers in
them as numbers: values of different kinds, and lengths in different units, are never equal.

- `Value.kind`: the kind of a value.
- `Value.inRange`: whether its number is one that a property may take.
- `Value.text`: the value as it is written in CSS.
-/

namespace FlexStyle

/-- The kinds of values that a property may ask for. -/
inductive Kind where
  | none
  | auto
  | integer
  | keyword (e : Enumeration)
  /-- Width divided by height. -/
  | ratio
  /-- A share of a hundred. -/
  | percentage
  | number
  | length
  | color
  deriving DecidableEq

/-- A value of a style property. -/
inductive Value where
  | none
  | auto
  | integer (n : Int32)
  | keyword {e : Enumeration} (k : Keyword e)
  | ratio (x : Single)
  | percentage (x : Single)
  | number (x : Single)
  | length (x : Single) (unit : LengthUnit)
  | color (c : Color)
  deriving DecidableEq

namespace Value

/-- A length in pixels. -/
def pixels (x : Single) : Value := .length x .px

def kind : Value → Kind
  | .none => .none
  | .auto => .auto
  | .integer _ => .integer
  | .keyword (e := e) _ => .keyword e
  | .ratio _ => .ratio
  | .percentage _ => .percentage
  | .number _ => .number
  | .length _ _ => .length
  | .color _ => .color

/-- Equality of values, with numbers compared as numbers. -/
def beq : Value → Value → Bool
  | .ratio x, .ratio y => x == y
  | .percentage x, .percentage y => x == y
  | .number x, .number y => x == y
  | .length x u, .length y v => x == y && u = v
  | v, w => v = w

instance : BEq Value := ⟨beq⟩

/-- The keyword of enumeration `e` that a value is, if it is one. -/
def asKeyword? (e : Enumeration) : Value → Option (Keyword e)
  | .keyword k => k.as? e
  | _ => Option.none

/-- The bare number that a value is, if it is one. -/
def asNumber? : Value → Option Single
  | .number x => some x
  | .ratio x => some x
  | .percentage x => some x
  | .integer n => some (.ofInt n.toInt)
  | _ => Option.none

/-- Numbers are finite; ratios, percentages and lengths are not negative either. -/
def inRange : Value → Bool
  | .ratio x => x.isFinite && 0 ≤ x
  | .percentage x => x.isFinite && 0 ≤ x
  | .length x _ => x.isFinite && 0 ≤ x
  | .number x => x.isFinite
  | _ => true

/-- The value as it is written. -/
def text : Value → String
  | .none => "none"
  | .auto => "auto"
  | .integer n => String.ofList (Decimal.integerText n.toInt)
  | .keyword k => k.name
  | .ratio x => x.text
  | .number x => x.text
  | .percentage x => x.text ++ "%"
  | .length x unit => x.text ++ unit.suffix
  | .color c => c.text

end Value

end FlexStyle
