/-!
# Binary number formats

A binary interchange format keeps a fraction field and an exponent field. Read together, as one
natural number, the two fields are the *code* of a magnitude: codes grow with the magnitude they
stand for, the code of infinity follows that of the largest finite magnitude, and the codes after
it are not numbers.

Every finite magnitude is a whole number of *units*, the smallest positive magnitude of the format
being one unit. All arithmetic is therefore done on natural numbers and rounded once.

- `Format.units`: the magnitude a finite code stands for.
- `Format.nearest`: the code of the magnitude nearest to a quotient of units; a tie goes to the
  even code, and what lies beyond the largest finite magnitude becomes infinity.
-/

namespace FlexStyle

/-- The widths of the two fields of a binary number; the fraction field is not empty. -/
structure Format where
  fractionBits : Nat
  exponentBits : Nat
  fractionBits_pos : 0 < fractionBits := by decide
  deriving DecidableEq

namespace Format

/-- The format of 32 bits. -/
def single : Format := ⟨23, 8, by decide⟩

/-- The format of 64 bits. -/
def double : Format := ⟨52, 11, by decide⟩

variable (f : Format)

/-- How many codes there are. -/
def codes : Nat := Nat.pow 2 (f.exponentBits + f.fractionBits)

/-- The code of infinity: all bits of the exponent, none of the fraction. -/
def infinity : Nat := (Nat.pow 2 f.exponentBits - 1) * Nat.pow 2 f.fractionBits

/-- The highest bit of the fraction; set in the code of a quiet not-a-number. -/
def quietBit : Nat := Nat.pow 2 (f.fractionBits - 1)

/-- One is `2 ^ unitShift` units. -/
def unitShift : Nat := Nat.pow 2 (f.exponentBits - 1) + f.fractionBits - 2

/-- The number of units that make one. -/
def unitsPerOne : Nat := Nat.pow 2 f.unitShift

/-- The fraction of a code, with the leading bit that is not stored. -/
def significand (code : Nat) : Nat :=
  if code < Nat.pow 2 f.fractionBits then code
  else code % Nat.pow 2 f.fractionBits + Nat.pow 2 f.fractionBits

/-- How many times the significand of a code is doubled. -/
def doublings (code : Nat) : Nat := code / Nat.pow 2 f.fractionBits - 1

/-- The magnitude of a finite code, in units. -/
def units (code : Nat) : Nat := f.significand code * Nat.pow 2 (f.doublings code)

/-- The whole number nearest to a quotient; a tie goes to the even one. -/
def nearestWhole (numerator denominator : Nat) : Nat :=
  let whole := numerator / denominator
  let twice := 2 * (numerator % denominator)
  if denominator < twice ∨ (denominator = twice ∧ whole % 2 = 1) then whole + 1 else whole

/-- How many low bits of a magnitude do not fit into a significand. -/
def excess (magnitude : Nat) : Nat := magnitude.log2 - f.fractionBits

/--
The code nearest to `numerator / denominator` units. Codes are consecutive, so a significand that
is rounded up past its last bit carries into the exponent by itself.
-/
def nearest (numerator denominator : Nat) : Nat :=
  let dropped := f.excess (numerator / denominator)
  min f.infinity
    (dropped * Nat.pow 2 f.fractionBits + nearestWhole numerator (denominator * Nat.pow 2 dropped))

theorem infinity_add_fraction : f.infinity + Nat.pow 2 f.fractionBits = f.codes := by
  have one_le : 1 ≤ Nat.pow 2 f.exponentBits := Nat.one_le_two_pow
  have product : Nat.pow 2 (f.exponentBits + f.fractionBits) =
      Nat.pow 2 f.exponentBits * Nat.pow 2 f.fractionBits := Nat.pow_add 2 _ _
  unfold infinity codes
  rw [product, ← Nat.succ_mul]
  congr 1
  omega

theorem infinity_lt_codes : f.infinity < f.codes := by
  have positive : 0 < Nat.pow 2 f.fractionBits := Nat.two_pow_pos _
  have := f.infinity_add_fraction
  omega

theorem quietBit_lt_codes : f.quietBit < f.codes := by
  unfold quietBit codes
  have := f.fractionBits_pos
  exact Nat.pow_lt_pow_right (by decide) (by omega)

theorem quiet_lt_codes : f.infinity + f.quietBit < f.codes := by
  have half : f.quietBit < Nat.pow 2 f.fractionBits :=
    Nat.pow_lt_pow_right (by decide) (Nat.sub_lt f.fractionBits_pos (by decide))
  have := f.infinity_add_fraction
  omega

theorem nearest_le_infinity (numerator denominator : Nat) :
    f.nearest numerator denominator ≤ f.infinity :=
  Nat.min_le_left _ _

@[simp] theorem nearest_zero (denominator : Nat) : f.nearest 0 denominator = 0 := by
  simp [nearest, excess, nearestWhole]

end Format

end FlexStyle
