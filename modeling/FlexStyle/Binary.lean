import FlexStyle.Binary.Format

/-!
# Binary floating-point numbers

A number of a binary format is a sign and the code of a magnitude. Two comparisons are kept apart:

- `x = y`: the numbers are identical, bit for bit. Zero differs from minus zero, and a
  not-a-number equals itself.
- `x == y`: the numbers compare as equal. The two zeros do, and a not-a-number does not, not even
  with itself. `x < y` and `x ≤ y` are the order that goes with it.
-/

namespace FlexStyle

/-- A number of format `f`: its sign, and the code of its magnitude. -/
structure Binary (f : Format) where
  negative : Bool
  code : Nat
  code_lt : code < f.codes
  deriving DecidableEq

/-- Numbers of 32 bits, in which styles are computed. -/
abbrev Single := Binary .single

/-- Numbers of 64 bits, in which numerals are read. -/
abbrev Double := Binary .double

namespace Binary

variable {f : Format}

/-- The number with the bits of `bits`: the sign bit stands above the code. -/
def ofBits (f : Format) (bits : Nat) : Binary f where
  negative := bits.testBit (f.exponentBits + f.fractionBits)
  code := bits % f.codes
  code_lt := Nat.mod_lt _ (Nat.two_pow_pos _)

/-! ## Kinds of numbers -/

def isNaN (x : Binary f) : Bool := f.infinity < x.code

def isInfinite (x : Binary f) : Bool := x.code = f.infinity

def isFinite (x : Binary f) : Bool := x.code < f.infinity

def isZero (x : Binary f) : Bool := x.code = 0

/-- The magnitude of a finite number, in units of its format. -/
def units (x : Binary f) : Nat := f.units x.code

/-! ## Particular numbers -/

def zero (negative : Bool) : Binary f := ⟨negative, 0, Nat.two_pow_pos _⟩

def infinite (negative : Bool) : Binary f := ⟨negative, f.infinity, f.infinity_lt_codes⟩

/-- The answer to an operation that has none, such as zero times infinity. -/
def invalid : Binary f := ⟨true, f.infinity + f.quietBit, f.quiet_lt_codes⟩

/-- The same number with its quiet bit set; used on a not-a-number. -/
def quiet (x : Binary f) : Binary f where
  negative := x.negative
  code := x.code ||| f.quietBit
  code_lt := Nat.or_lt_two_pow x.code_lt f.quietBit_lt_codes

/-- The number that follows away from zero; infinity is the last one. -/
def outward (x : Binary f) : Binary f where
  negative := x.negative
  code := min (x.code + 1) f.infinity
  code_lt := Nat.lt_of_le_of_lt (Nat.min_le_right _ _) f.infinity_lt_codes

/-- The number nearest to a quotient of units, with a sign. -/
def rounded (negative : Bool) (numerator denominator : Nat) : Binary f where
  negative
  code := f.nearest numerator denominator
  code_lt := Nat.lt_of_le_of_lt (f.nearest_le_infinity _ _) f.infinity_lt_codes

/-- The number nearest to a quotient of natural numbers. -/
def ofRatio (numerator denominator : Nat) : Binary f :=
  rounded false (numerator * f.unitsPerOne) denominator

/-- The number nearest to an integer. -/
def ofInt (n : Int) : Binary f := rounded (n < 0) (n.natAbs * f.unitsPerOne) 1

instance (n : Nat) : OfNat (Binary f) n := ⟨ofRatio n 1⟩

/-! ## Comparison -/

/-- Numbers that are not NaN are ordered as their keys; both zeros have the key zero. -/
def key (x : Binary f) : Int := if x.negative then -x.code else x.code

instance : BEq (Binary f) := ⟨fun x y => !x.isNaN && !y.isNaN && x.key == y.key⟩

instance : LT (Binary f) := ⟨fun x y => (!x.isNaN && !y.isNaN && decide (x.key < y.key)) = true⟩

instance : LE (Binary f) := ⟨fun x y => (!x.isNaN && !y.isNaN && decide (x.key ≤ y.key)) = true⟩

instance (x y : Binary f) : Decidable (x < y) := inferInstanceAs (Decidable (_ = true))

instance (x y : Binary f) : Decidable (x ≤ y) := inferInstanceAs (Decidable (_ = true))

theorem beq_iff {x y : Binary f} :
    (x == y) = true ↔ x.isNaN = false ∧ y.isNaN = false ∧ x.key = y.key := by
  change (!x.isNaN && !y.isNaN && x.key == y.key) = true ↔ _
  simp [and_assoc]

theorem lt_iff {x y : Binary f} :
    x < y ↔ x.isNaN = false ∧ y.isNaN = false ∧ x.key < y.key := by
  change (!x.isNaN && !y.isNaN && decide (x.key < y.key)) = true ↔ _
  simp [and_assoc]

theorem le_iff {x y : Binary f} :
    x ≤ y ↔ x.isNaN = false ∧ y.isNaN = false ∧ x.key ≤ y.key := by
  change (!x.isNaN && !y.isNaN && decide (x.key ≤ y.key)) = true ↔ _
  simp [and_assoc]

end Binary

end FlexStyle
