import FlexStyle.Binary.Arithmetic
import Mathlib.Tactic.Ring

/-!
# Rounding

Rounding depends on a quotient alone, not on how it is written as a fraction, and changes nothing
about a magnitude that the format has.

- `Format.nearest_congr`: equal quotients are rounded to the same code.
- `Format.nearest_units`: the magnitude of a finite code is rounded to that code.
- `Format.nearest_lt_infinity`: small quotients are rounded to finite codes.
- `Binary.div_one`, `Binary.div_cases`: division by one, and of numbers that are not negative.
- `Binary.isFinite_ofInt`: integers of 32 bits are finite numbers.
-/

namespace FlexStyle

namespace Format

variable (f : Format)

/-! ## Quotients -/

/-- Rounding a fraction does not depend on how the fraction is written. -/
theorem nearestWhole_mul_right (numerator denominator : Nat) {k : Nat} (hk : 0 < k) :
    nearestWhole (numerator * k) (denominator * k) = nearestWhole numerator denominator := by
  have htwice : 2 * (numerator % denominator * k) = 2 * (numerator % denominator) * k := by ring
  unfold nearestWhole
  rw [Nat.mul_div_mul_right _ _ hk, Nat.mul_mod_mul_right, htwice]
  simp only [Nat.mul_lt_mul_right hk, Nat.mul_right_cancel_iff hk]

/-- Rounding leaves whole numbers alone. -/
theorem nearestWhole_mul_self (whole : Nat) {denominator : Nat} (h : 0 < denominator) :
    nearestWhole (whole * denominator) denominator = whole := by
  unfold nearestWhole
  rw [Nat.mul_div_cancel _ h, Nat.mul_mod_left]
  exact if_neg (by omega)

theorem nearestWhole_le (numerator denominator : Nat) :
    nearestWhole numerator denominator ≤ numerator / denominator + 1 := by
  unfold nearestWhole
  dsimp only
  split
  · exact Nat.le_refl _
  · exact Nat.le_succ _

/-- The code nearest to a fraction does not depend on how the fraction is written. -/
theorem nearest_mul_right (numerator denominator : Nat) {k : Nat} (hk : 0 < k) :
    f.nearest (numerator * k) (denominator * k) = f.nearest numerator denominator := by
  unfold nearest
  rw [Nat.mul_div_mul_right _ _ hk]
  dsimp only
  rw [Nat.mul_right_comm denominator k, nearestWhole_mul_right _ _ hk]

/-- Equal quotients are rounded to the same code. -/
theorem nearest_congr {n d n' d' : Nat} (hd : 0 < d) (hd' : 0 < d') (h : n * d' = n' * d) :
    f.nearest n d = f.nearest n' d' := by
  rw [← f.nearest_mul_right n d hd', ← f.nearest_mul_right n' d' hd, h, Nat.mul_comm d]

/-! ## Magnitudes of the format -/

/-- The significand of a code and its doublings make up the code again. -/
theorem doublings_add_significand (code : Nat) :
    f.doublings code * Nat.pow 2 f.fractionBits + f.significand code = code := by
  have hpos : 0 < Nat.pow 2 f.fractionBits := Nat.two_pow_pos _
  unfold doublings significand
  split
  -- below the first power of two, the code is the significand itself
  case isTrue h => rw [Nat.div_eq_of_lt h]; simp
  case isFalse h =>
    have hone : 1 ≤ code / Nat.pow 2 f.fractionBits :=
      (Nat.one_le_div_iff hpos).mpr (Nat.le_of_not_lt h)
    have hdiv := Nat.div_add_mod' code (Nat.pow 2 f.fractionBits)
    rw [Nat.sub_mul, Nat.one_mul]
    have := Nat.mul_le_mul_right (Nat.pow 2 f.fractionBits) hone
    omega

/-- The low bits of the magnitude of a code that do not fit are those that its doublings add. -/
theorem excess_units (code : Nat) : f.excess (f.units code) = f.doublings code := by
  have hpos : 0 < Nat.pow 2 f.fractionBits := Nat.two_pow_pos _
  unfold excess units doublings significand
  split
  case isTrue h =>
    rw [Nat.div_eq_of_lt h]
    by_cases hzero : code = 0
    · subst hzero; simp
    · have hlog : code.log2 < f.fractionBits := (Nat.log2_lt hzero).mpr h
      simp
      omega
  case isFalse h =>
    have hsmall := Nat.mod_lt code hpos
    generalize code / Nat.pow 2 f.fractionBits - 1 = d
    generalize code % Nat.pow 2 f.fractionBits = low at hsmall ⊢
    simp only [Nat.pow_eq] at hpos hsmall ⊢
    have hdpos : 0 < 2 ^ d := Nat.two_pow_pos d
    -- the leading bit stands where the hidden one has been put
    have hlog : ((low + 2 ^ f.fractionBits) * 2 ^ d).log2 = f.fractionBits + d := by
      rw [Nat.log2_eq_iff (Nat.mul_ne_zero (by omega) hdpos.ne')]
      constructor
      · rw [Nat.pow_add]
        exact Nat.mul_le_mul_right _ (Nat.le_add_left _ _)
      · rw [show f.fractionBits + d + 1 = f.fractionBits + 1 + d by omega, Nat.pow_add]
        refine Nat.mul_lt_mul_of_pos_right ?_ hdpos
        rw [Nat.pow_succ]
        exact Nat.lt_of_lt_of_eq (Nat.add_lt_add_right hsmall _) (Nat.mul_two _).symm
    rw [hlog, Nat.add_sub_cancel_left]

/-- The magnitude of a finite code is rounded to that code. -/
theorem nearest_units {code : Nat} (h : code < f.infinity) : f.nearest (f.units code) 1 = code := by
  unfold nearest
  rw [Nat.div_one, excess_units]
  dsimp only
  have hpos : 0 < Nat.pow 2 (f.doublings code) := Nat.two_pow_pos _
  rw [Nat.one_mul, units, nearestWhole_mul_self _ hpos, doublings_add_significand]
  exact Nat.min_eq_right h.le

/-- The code nearest to a number with a code is that code. -/
theorem nearest_units_mul {code k : Nat} (h : code < f.infinity) (hk : 0 < k) :
    f.nearest (f.units code * k) k = code := by
  have := f.nearest_mul_right (f.units code) 1 hk
  rwa [Nat.one_mul, f.nearest_units h] at this

/-- Quotients are rounded to finite codes if their exponents are within bounds. -/
theorem nearest_lt_infinity {numerator denominator k : Nat} (hk : f.fractionBits < k)
    (h : numerator / denominator < 2 ^ k)
    (hbound : k + 1 - f.fractionBits < Nat.pow 2 f.exponentBits - 1) :
    f.nearest numerator denominator < f.infinity := by
  have hpos : 0 < Nat.pow 2 f.fractionBits := Nat.two_pow_pos _
  unfold nearest
  generalize hm : numerator / denominator = m at h
  generalize hdropped : f.excess m = dropped
  refine Nat.lt_of_le_of_lt (Nat.min_le_right _ _) ?_
  have hlog : m.log2 < k := by
    by_cases hzero : m = 0
    · subst hzero
      simp
      omega
    · exact (Nat.log2_lt hzero).mpr h
  unfold excess at hdropped
  -- rounding may carry into the next power of two, but no further
  have hwhole : nearestWhole numerator (denominator * Nat.pow 2 dropped) ≤
      2 * Nat.pow 2 f.fractionBits := by
    refine Nat.le_trans (nearestWhole_le _ _) ?_
    rw [← Nat.div_div_eq_div_mul, hm]
    refine Nat.succ_le_of_lt ((Nat.div_lt_iff_lt_mul (Nat.two_pow_pos _)).mpr ?_)
    have hlt : m < 2 ^ (f.fractionBits + 1 + dropped) :=
      Nat.lt_of_lt_of_le Nat.lt_log2_self (Nat.pow_le_pow_right (by decide) (by omega))
    refine Nat.lt_of_lt_of_eq hlt ?_
    rw [Nat.pow_add, Nat.pow_succ]
    exact congrArg (· * _) (Nat.mul_comm _ _)
  have hcode : dropped * Nat.pow 2 f.fractionBits + 2 * Nat.pow 2 f.fractionBits ≤
      (k + 1 - f.fractionBits) * Nat.pow 2 f.fractionBits := by
    rw [← Nat.add_mul]
    exact Nat.mul_le_mul_right _ (by omega)
  calc dropped * Nat.pow 2 f.fractionBits + nearestWhole numerator (denominator * Nat.pow 2 dropped)
      ≤ dropped * Nat.pow 2 f.fractionBits + 2 * Nat.pow 2 f.fractionBits :=
        Nat.add_le_add_left hwhole _
    _ ≤ (k + 1 - f.fractionBits) * Nat.pow 2 f.fractionBits := hcode
    _ < f.infinity := Nat.mul_lt_mul_of_pos_right hbound hpos

end Format

namespace Binary

variable {f : Format} {x y : Binary f}

/-! ## Signs -/

theorem isNaN_of_isFinite (h : x.isFinite = true) : x.isNaN = false := by
  have hlt : x.code < f.infinity := of_decide_eq_true h
  exact decide_eq_false hlt.asymm

theorem isInfinite_of_isFinite (h : x.isFinite = true) : x.isInfinite = false := by
  have hlt : x.code < f.infinity := of_decide_eq_true h
  exact decide_eq_false hlt.ne

theorem isNaN_zero : (0 : Binary f).isNaN = false := by
  show decide (f.infinity < f.nearest (0 * _) 1) = false
  simp

theorem key_zero : (0 : Binary f).key = 0 := by
  show (if false then _ else ((f.nearest (0 * _) 1 : Nat) : Int)) = 0
  simp

/-- What it means not to be below zero, for what is a number. -/
theorem zero_le_iff : 0 ≤ x ↔ x.isNaN = false ∧ 0 ≤ x.key := by
  rw [le_iff, isNaN_zero, key_zero]
  exact ⟨fun h => h.2, fun h => ⟨rfl, h⟩⟩

theorem lt_zero_iff : x < 0 ↔ x.isNaN = false ∧ x.key < 0 := by
  rw [lt_iff, isNaN_zero, key_zero]
  exact ⟨fun h => ⟨h.1, h.2.2⟩, fun h => ⟨h.1, rfl, h.2⟩⟩

theorem le_zero_iff : x ≤ 0 ↔ x.isNaN = false ∧ x.key ≤ 0 := by
  rw [le_iff, isNaN_zero, key_zero]
  exact ⟨fun h => ⟨h.1, h.2.2⟩, fun h => ⟨h.1, rfl, h.2⟩⟩

/-- A finite number that is not below zero is at least zero. -/
theorem not_lt_zero_iff (h : x.isFinite = true) : ¬ x < 0 ↔ 0 ≤ x := by
  rw [lt_zero_iff, zero_le_iff, isNaN_of_isFinite h]
  simp

theorem not_le_zero_iff (h : x.isFinite = true) : ¬ x ≤ 0 ↔ 0 < x := by
  rw [le_zero_iff, lt_iff, isNaN_of_isFinite h, isNaN_zero, key_zero]
  simp

/-- Codes without a sign are not below zero. -/
theorem zero_le_of_code {negative : Bool} {code : Nat} (hcode : code < f.codes)
    (hle : code ≤ f.infinity) (hsign : negative = true → code = 0) :
    (0 : Binary f) ≤ ⟨negative, code, hcode⟩ := by
  rw [zero_le_iff]
  refine ⟨decide_eq_false (Nat.not_lt.mpr hle), ?_⟩
  cases negative with
  | false => exact Int.natCast_nonneg code
  | true => simp [key, hsign rfl]

/-! ## Quotients -/

/-- A quotient of finite numbers is rounded once. -/
theorem div_of_isFinite (hx : x.isFinite = true) (hy : y.isFinite = true)
    (hzero : y.isZero = false) :
    x / y = rounded (x.negative ^^ y.negative) (x.units * f.unitsPerOne) y.units := by
  show div x y = _
  unfold div
  rw [isNaN_of_isFinite hx, isNaN_of_isFinite hy, isInfinite_of_isFinite hx,
    isInfinite_of_isFinite hy, hzero]
  rfl

/-- A number that is zero is no units at all. -/
theorem units_of_code_eq_zero (h : x.code = 0) : x.units = 0 := by
  simp [units, Format.units, Format.significand, h]

/-- The quotient of a number that is not negative and one that is positive is not negative, but it
may be too large. -/
theorem div_cases (hx : x.isFinite = true) (hy : y.isFinite = true) (hx₀ : ¬ x < 0)
    (hy₀ : ¬ y ≤ 0) : 0 ≤ x / y ∧ ((x / y).isFinite = true ∨ x / y = infinite false) := by
  rw [lt_zero_iff, isNaN_of_isFinite hx] at hx₀
  rw [le_zero_iff, isNaN_of_isFinite hy] at hy₀
  have hpos : y.negative = false ∧ y.code ≠ 0 := by
    cases hneg : y.negative with
    | false => simpa [key, hneg] using hy₀
    | true => simp [key, hneg] at hy₀
  have hsign : x.negative = true → x.code = 0 := by
    intro hneg
    simp [key, hneg] at hx₀
    omega
  rw [div_of_isFinite hx hy (decide_eq_false hpos.2), hpos.1, Bool.xor_false]
  -- only a negative zero has a sign, and its quotient is a zero too
  constructor
  · refine zero_le_of_code _ (f.nearest_le_infinity _ _) fun hneg => ?_
    rw [units_of_code_eq_zero (hsign hneg), Nat.zero_mul, Format.nearest_zero]
  · rcases Nat.lt_or_eq_of_le (f.nearest_le_infinity (x.units * f.unitsPerOne) y.units) with h | h
    · exact .inl (decide_eq_true h)
    · right
      cases hneg : x.negative with
      | false => simp [rounded, infinite, h]
      | true =>
        rw [units_of_code_eq_zero (hsign hneg), Nat.zero_mul, Format.nearest_zero] at h
        exact absurd hx (by simp [isFinite, hsign hneg, ← h])

end Binary

/-! ## Single precision -/

namespace Binary

theorem isFinite_one : (1 : Single).isFinite = true := by decide +kernel

theorem units_one : (1 : Single).units = Format.single.unitsPerOne := by decide +kernel

/-- Division by one leaves finite numbers alone. -/
theorem div_one {x : Single} (h : x.isFinite = true) : x / 1 = x := by
  have hcode : x.code < Format.single.infinity := of_decide_eq_true h
  have hunits : Format.single.nearest (x.units * Format.single.unitsPerOne)
      Format.single.unitsPerOne = x.code :=
    Format.nearest_units_mul _ hcode (Nat.two_pow_pos _)
  have hsign : (1 : Single).negative = false := rfl
  rw [div_of_isFinite h isFinite_one (by decide +kernel), units_one, hsign, Bool.xor_false]
  simp only [rounded, hunits]

/-- Integers of 32 bits are within the range of finite numbers. -/
theorem isFinite_ofInt (n : Int32) : (ofInt n.toInt : Single).isFinite = true := by
  have hsize : n.toInt.natAbs < 2 ^ 32 := by
    have := n.le_toInt
    have := n.toInt_lt
    omega
  refine decide_eq_true (Format.single.nearest_lt_infinity (k := 32 + 149) (by decide) ?_
    (by decide))
  rw [Nat.div_one, Nat.pow_add]
  exact Nat.mul_lt_mul_of_pos_right hsize (Nat.two_pow_pos 149)

/-- Integers that are not negative stay so. -/
theorem zero_le_ofInt {n : Int32} (h : 0 ≤ n) : 0 ≤ (ofInt n.toInt : Single) := by
  have hint : 0 ≤ n.toInt := Int32.le_iff_toInt_le.mp h
  refine zero_le_of_code _ (Format.nearest_le_infinity _ _ _) fun hneg => ?_
  exact absurd hint (Int.not_le.mpr (of_decide_eq_true hneg))

end Binary

end FlexStyle
