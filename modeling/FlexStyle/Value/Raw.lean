import FlexStyle.Value.Reader

/-!
# Raw input

What a caller writes to a property: text, plain numbers, keywords, colors or ready values. Raw
input becomes a value of a kind that the property asks for, or is rejected.

- `Raw.toValue?`: the value of a given kind.
- `Slot.read?`: a value of the first kind in a list of kinds that fits.
- `Pattern.firstMatch?`: the values of a whole list of arguments.
-/

namespace FlexStyle

/-- Input to a property before it is checked. -/
inductive Raw where
  /-- No value. -/
  | unspecified
  | text (text : String)
  | integer (n : Int32)
  | number (x : Single)
  | keyword {e : Enumeration} (k : Keyword e)
  | value (v : Value)
  | color (c : Color)

namespace Raw

/-- Whether the input holds no value; a blank text does not. -/
def isUnspecified : Raw → Bool
  | unspecified => true
  | text t => t.toList.all Text.isBlank
  | _ => false

/-- An integer stands for a number of any kind; it counts pixels as a length. -/
def ofInteger? (n : Int32) : Kind → Option Value
  | .integer => some (.integer n)
  | .ratio => if 0 ≤ n then some (.ratio (.ofInt n.toInt)) else none
  | .percentage => if 0 ≤ n then some (.percentage (.ofInt n.toInt)) else none
  | .number => some (.number (.ofInt n.toInt))
  | .length => if 0 ≤ n then some (.pixels (.ofInt n.toInt)) else none
  | _ => none

/-- A finite number stands for any kind but an integer; it counts pixels as a length. -/
def ofNumber? (x : Single) : Kind → Option Value
  | .ratio => if x.isFinite && 0 ≤ x then some (.ratio x) else none
  | .percentage => if x.isFinite && 0 ≤ x then some (.percentage x) else none
  | .number => if x.isFinite then some (.number x) else none
  | .length => if x.isFinite && 0 ≤ x then some (.pixels x) else none
  | _ => none

/-- The value of the given kind that the input stands for. -/
def toValue? (kind : Kind) : Raw → Option Value
  | unspecified => none
  | text t => Value.ofText? kind t
  | integer n => ofInteger? n kind
  | number x => ofNumber? x kind
  | keyword (e := e) k => if kind = .keyword e then some (.keyword k) else none
  | value v => if v.kind = kind && v.inRange then some v else none
  | color c => if kind = .color then some (.color c) else none

end Raw

/-- The kinds that one argument may have, in order of preference. -/
abbrev Slot := List Kind

/-- The arguments of one form of a property. -/
abbrev Pattern := List Slot

/-- The value of the first kind that fits. -/
def Slot.read? (slot : Slot) (raw : Raw) : Option Value :=
  slot.findSome? fun kind => raw.toValue? kind

/-- The values of all arguments; there have to be as many arguments as slots. -/
def Pattern.read? : Pattern → List Raw → Option (List Value)
  | [], [] => some []
  | slot :: pattern, raw :: arguments => do
    let value ← Slot.read? slot raw
    let values ← Pattern.read? pattern arguments
    return value :: values
  | _, _ => none

/-- The values of the arguments in the first pattern that fits. -/
def Pattern.firstMatch? (patterns : List Pattern) (arguments : List Raw) : Option (List Value) :=
  patterns.findSome? fun pattern => Pattern.read? pattern arguments

end FlexStyle
