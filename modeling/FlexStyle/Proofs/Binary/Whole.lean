import FlexStyle.Proofs.Binary

/-!
# Whole numbers

A natural number that fits into a significand is a number of the format, and on such numbers the
operations are those of natural numbers, rounded once.

- `Format.Exact`, `Format.exact_of_lt`: the natural numbers of a format.
- `Binary.mul_ofRatio`, `Binary.add_ofRatio`: their products and sums.
- `Binary.truncate_ofRatio`: what is left of them when they are truncated.
-/

namespace FlexStyle

namespace Format

variable (f : Format)

/-- Whether a natural number is the magnitude of a finite code. -/
def Exact (n : Nat) : Prop := ∃ code < f.infinity, f.units code = n * f.unitsPerOne

/-- A significand with its leading bit, doubled a number of times. -/
theorem units_of_significand {d s : Nat} (hlow : Nat.pow 2 f.fractionBits ≤ s)
    (hhigh : s < 2 * Nat.pow 2 f.fractionBits) :
    f.units (d * Nat.pow 2 f.fractionBits + s) = s * Nat.pow 2 d := by
  have hpos : 0 < Nat.pow 2 f.fractionBits := Nat.two_pow_pos _
  unfold units significand doublings
  generalize Nat.pow 2 f.fractionBits = bound at *
  have hdiv : (d * bound + s) / bound = d + 1 := by
    rw [Nat.mul_comm, Nat.mul_add_div hpos, Nat.div_eq_of_lt_le (k := 1) (by omega) (by omega)]
  have hmod : (d * bound + s) % bound = s - bound := by
    rw [Nat.mul_comm, Nat.mul_add_mod, Nat.mod_eq_sub_mod hlow, Nat.mod_eq_of_lt (by omega)]
  rw [if_neg (by rw [Nat.not_lt]; exact Nat.le_trans hlow (Nat.le_add_left _ _)), hdiv, hmod,
    Nat.sub_add_cancel hlow, Nat.add_sub_cancel]

/-- The natural numbers that fit into a significand are exact, unless the exponents are few. -/
theorem exact_of_lt (hbits : f.fractionBits < Nat.pow 2 (f.exponentBits - 1)) {n : Nat}
    (hn : n < 2 ^ (f.fractionBits + 1)) : f.Exact n := by
  have hfraction := f.fractionBits_pos
  have hexponent : 2 * Nat.pow 2 (f.exponentBits - 1) = Nat.pow 2 f.exponentBits := by
    cases hbits' : f.exponentBits with
    | zero =>
      rw [hbits'] at hbits
      exact absurd hbits (by simp; omega)
    | succ k => rw [Nat.pow_eq, Nat.pow_eq, Nat.pow_succ, Nat.add_sub_cancel, Nat.mul_comm]
  have hshift : f.unitShift = Nat.pow 2 (f.exponentBits - 1) + f.fractionBits - 2 := rfl
  by_cases hzero : n = 0
  · subst hzero
    refine ⟨0, Nat.mul_pos (by omega) (Nat.two_pow_pos _), ?_⟩
    simp [units, significand]
  · have hlog : n.log2 ≤ f.fractionBits := Nat.le_of_lt_succ ((Nat.log2_lt hzero).mpr hn)
    -- the leading bit is moved to its place, and the rest of the doublings are the exponent's
    obtain ⟨shift, hsum⟩ := Nat.exists_eq_add_of_le hlog
    obtain ⟨d, hd⟩ : ∃ d, f.unitShift = shift + d := Nat.exists_eq_add_of_le (by omega)
    have hlow : Nat.pow 2 f.fractionBits ≤ n * 2 ^ shift := by
      rw [hsum, Nat.pow_eq, Nat.pow_add]
      exact Nat.mul_le_mul_right _ (Nat.log2_self_le hzero)
    have hhigh : n * 2 ^ shift < 2 * Nat.pow 2 f.fractionBits := by
      rw [hsum, Nat.pow_eq, Nat.pow_add, ← Nat.mul_assoc, ← Nat.pow_succ']
      exact Nat.mul_lt_mul_of_pos_right Nat.lt_log2_self (Nat.two_pow_pos _)
    refine ⟨d * Nat.pow 2 f.fractionBits + n * 2 ^ shift, ?_, ?_⟩
    · calc d * Nat.pow 2 f.fractionBits + n * 2 ^ shift
          < (d + 2) * Nat.pow 2 f.fractionBits := by rw [Nat.add_mul]; omega
        _ ≤ f.infinity := Nat.mul_le_mul_right _ (by omega)
    · rw [f.units_of_significand hlow hhigh, unitsPerOne, hd, Nat.pow_eq, Nat.pow_eq, Nat.pow_add,
        Nat.mul_assoc]

end Format

namespace Binary

variable {f : Format} {x y : Binary f} {a b n : Nat}

/-- A whole number that has a code is represented exactly. -/
theorem ofRatio_spec (h : f.Exact n) :
    (ofRatio n 1 : Binary f).isFinite = true ∧
      (ofRatio n 1 : Binary f).units = n * f.unitsPerOne := by
  obtain ⟨code, hfinite, hunits⟩ := h
  have hcode : (ofRatio n 1 : Binary f).code = code := by
    show f.nearest (n * f.unitsPerOne) 1 = code
    rw [← hunits, f.nearest_units hfinite]
  exact ⟨by simpa [isFinite, hcode] using hfinite, by rw [units, hcode, hunits]⟩

theorem mul_of_isFinite (hx : x.isFinite = true) (hy : y.isFinite = true) :
    x * y = rounded (x.negative ^^ y.negative) (x.units * y.units) f.unitsPerOne := by
  show mul x y = _
  unfold mul
  rw [isNaN_of_isFinite hx, isNaN_of_isFinite hy, isInfinite_of_isFinite hx,
    isInfinite_of_isFinite hy]
  rfl

theorem add_of_isFinite (hx : x.isFinite = true) (hy : y.isFinite = true) :
    x + y =
      let sum := x.signedUnits + y.signedUnits
      if sum = 0 then zero (x.negative && y.negative) else rounded (sum < 0) sum.natAbs 1 := by
  show add x y = _
  unfold add
  rw [isNaN_of_isFinite hx, isNaN_of_isFinite hy, isInfinite_of_isFinite hx,
    isInfinite_of_isFinite hy]
  rfl

/-- The product of exact numbers is rounded, but they are not. -/
theorem mul_ofRatio (ha : f.Exact a) (hb : f.Exact b) :
    (ofRatio a 1 * ofRatio b 1 : Binary f) = ofRatio (a * b) 1 := by
  obtain ⟨hx, hxunits⟩ := ofRatio_spec ha
  obtain ⟨hy, hyunits⟩ := ofRatio_spec hb
  have hnearest : f.nearest (a * f.unitsPerOne * (b * f.unitsPerOne)) f.unitsPerOne =
      f.nearest (a * b * f.unitsPerOne) 1 :=
    f.nearest_congr (Nat.two_pow_pos _) Nat.one_pos (by ring)
  rw [mul_of_isFinite hx hy, hxunits, hyunits]
  simp only [ofRatio, rounded, hnearest, Bool.xor_false]

/-- Sums of whole numbers that have codes are rounded once. -/
theorem add_ofRatio (ha : f.Exact a) (hb : f.Exact b) :
    (ofRatio a 1 + ofRatio b 1 : Binary f) = ofRatio (a + b) 1 := by
  obtain ⟨hx, hxunits⟩ := ofRatio_spec ha
  obtain ⟨hy, hyunits⟩ := ofRatio_spec hb
  have hsum : (ofRatio a 1 : Binary f).signedUnits + (ofRatio b 1 : Binary f).signedUnits =
      ((a + b) * f.unitsPerOne : Nat) := by
    show ((ofRatio a 1 : Binary f).units : Int) + ((ofRatio b 1 : Binary f).units : Int) = _
    rw [hxunits, hyunits, Nat.add_mul, Int.natCast_add]
  rw [add_of_isFinite hx hy, hsum]
  dsimp only
  split
  · rename_i hzero
    have hnone : (a + b) * f.unitsPerOne = 0 := Int.natCast_eq_zero.mp hzero
    simp only [zero, ofRatio, rounded, hnone, Format.nearest_zero]
    rfl
  · have hsign : ¬ (((a + b) * f.unitsPerOne : Nat) : Int) < 0 :=
      Int.not_lt.mpr (Int.natCast_nonneg _)
    simp only [ofRatio, rounded, hsign, decide_false, Int.natAbs_natCast]

/-- Nothing of a whole number is cut off. -/
theorem truncate_ofRatio (h : f.Exact n) : (ofRatio n 1 : Binary f).truncate = n := by
  have hpos : 0 < f.unitsPerOne := Nat.two_pow_pos _
  rw [truncate, (ofRatio_spec h).2, Nat.mul_div_cancel _ hpos]
  rfl

theorem truncate_neg (x : Binary f) : (-x).truncate = -x.truncate := by
  have hnegative : (-x).negative = !x.negative := rfl
  have hunits : (-x).units = x.units := rfl
  unfold truncate
  rw [hnegative, hunits]
  cases x.negative <;> simp

/-- Whole numbers up to the width of the significand have codes. -/
theorem exact_double (h : n < 2 ^ 53) : Format.double.Exact n :=
  Format.double.exact_of_lt (by decide) h

end Binary

end FlexStyle
