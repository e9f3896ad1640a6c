import FlexStyle.Proofs.Binary

/-!
# Numbers that are not below zero

Products of numbers that are not below zero are not below zero, and so are quotients with a positive
number. That takes in minus zero, the infinities and what is not a number: the last is not below
anything, and stays what it is.

- `Binary.not_lt_zero_iff_cases`: which numbers are not below zero.
- `Binary.not_mul_lt_zero`, `Binary.not_div_lt_zero`: products and quotients.
-/

namespace FlexStyle.Binary

variable {f : Format} {x y : Binary f}

/-- A number that is not below zero has no sign, or it is minus zero or not a number. -/
theorem not_lt_zero_iff_cases :
    ¬ x < 0 ↔ x.isNaN = true ∨ x.negative = false ∨ x.code = 0 := by
  rw [lt_zero_iff, not_and, Int.not_lt]
  cases hnan : x.isNaN <;> cases hneg : x.negative <;> simp [key, hneg]

/-- What is not a number is not below zero. -/
theorem not_lt_zero_of_isNaN (h : x.isNaN = true) : ¬ x < 0 := not_lt_zero_iff_cases.mpr (.inl h)

theorem isNaN_quiet (h : x.isNaN = true) : x.quiet.isNaN = true :=
  decide_eq_true (Nat.lt_of_lt_of_le (of_decide_eq_true h) Nat.left_le_or)

theorem isNaN_invalid : (invalid : Binary f).isNaN = true :=
  decide_eq_true (Nat.lt_add_of_pos_right (Nat.two_pow_pos _))

/-- Rounding makes no sign, unless there is one and something to be rounded. -/
theorem not_rounded_lt_zero {negative : Bool} {numerator denominator : Nat}
    (h : negative = true → numerator = 0) :
    ¬ (rounded negative numerator denominator : Binary f) < 0 := by
  rw [not_lt_zero_iff_cases]
  cases negative with
  | false => exact .inr (.inl rfl)
  | true =>
    refine .inr (.inr ?_)
    show f.nearest numerator denominator = 0
    rw [h rfl, Format.nearest_zero]

/-- The number nearest to a ratio of natural numbers is not below zero. -/
theorem not_ofRatio_lt_zero (numerator denominator : Nat) :
    ¬ (ofRatio numerator denominator : Binary f) < 0 :=
  not_rounded_lt_zero (by simp)

/-- A product is not below zero if its factors are not. -/
theorem not_mul_lt_zero (hx : ¬ x < 0) (hy : ¬ y < 0) : ¬ x * y < 0 := by
  rw [not_lt_zero_iff_cases] at hx hy
  show ¬ mul x y < 0
  unfold mul
  cases hxn : x.isNaN with
  | true => exact not_lt_zero_of_isNaN (isNaN_quiet hxn)
  | false =>
    cases hyn : y.isNaN with
    | true => exact not_lt_zero_of_isNaN (isNaN_quiet hyn)
    | false =>
      -- a factor with a sign is minus zero
      simp only [hxn, hyn, Bool.false_eq_true, false_or, ↓reduceIte] at hx hy ⊢
      split
      · split
        · exact not_lt_zero_of_isNaN isNaN_invalid
        case isFalse hzero =>
          simp only [isZero, Bool.or_eq_true, decide_eq_true_eq, not_or] at hzero
          have hxs := hx.resolve_right hzero.1
          have hys := hy.resolve_right hzero.2
          exact not_lt_zero_iff_cases.mpr (.inr (.inl (by rw [hxs, hys]; rfl)))
      · refine not_rounded_lt_zero fun hsign => ?_
        rcases hx with hxs | hxz
        · rcases hy with hys | hyz
          · rw [hxs, hys] at hsign
            cases hsign
          · rw [units_of_code_eq_zero hyz, Nat.mul_zero]
        · rw [units_of_code_eq_zero hxz, Nat.zero_mul]

/-- A positive number has no sign and is not zero. -/
theorem signless_of_pos (h : 0 < y) : y.isNaN = false ∧ y.negative = false ∧ y.code ≠ 0 := by
  obtain ⟨-, hnan, hkey⟩ := lt_iff.mp h
  rw [key_zero] at hkey
  cases hneg : y.negative with
  | false => exact ⟨hnan, rfl, by simpa [key, hneg, Nat.pos_iff_ne_zero] using hkey⟩
  | true => simp [key, hneg] at hkey; omega

theorem not_lt_zero_of_pos (h : 0 < y) : ¬ y < 0 :=
  not_lt_zero_iff_cases.mpr (.inr (.inl (signless_of_pos h).2.1))

/-- A quotient is not below zero if neither part is. -/
theorem not_div_lt_zero (hx : ¬ x < 0) (hy : 0 < y) : ¬ x / y < 0 := by
  obtain ⟨hyn, hys, hyz⟩ := signless_of_pos hy
  rw [not_lt_zero_iff_cases] at hx
  show ¬ div x y < 0
  unfold div
  cases hxn : x.isNaN with
  | true => exact not_lt_zero_of_isNaN (isNaN_quiet hxn)
  | false =>
    have hzero : y.isZero = false := decide_eq_false hyz
    simp only [hxn, hyn, hys, hzero, Bool.false_eq_true, false_or, Bool.xor_false,
      ↓reduceIte] at hx ⊢
    split
    case isTrue hinf =>
      split
      · exact not_lt_zero_of_isNaN isNaN_invalid
      · rcases hx with hxs | hxz
        · exact not_lt_zero_iff_cases.mpr (.inr (.inl hxs))
        · exact not_lt_zero_iff_cases.mpr (.inr (.inr ((of_decide_eq_true hinf).symm.trans hxz)))
    case isFalse =>
      split
      · exact not_lt_zero_iff_cases.mpr (.inr (.inr rfl))
      · refine not_rounded_lt_zero fun hsign => ?_
        rw [units_of_code_eq_zero (hx.resolve_left (by simp [hsign])), Nat.zero_mul]

end FlexStyle.Binary
