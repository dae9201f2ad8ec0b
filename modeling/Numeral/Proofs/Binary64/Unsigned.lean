import Numeral.Literal.Exponent
import Numeral.Proofs.Binary64.Exact

/-! Numbers without a sign: zero, positive or infinite, and never what stands for no result at all.
Sums of them are such numbers again, and so are products as long as none of zero and infinity has to
be taken, which scaling by powers of two and of ten never does.
-/

namespace Numeral.Binary64

/-- The number is zero, positive or infinite. -/
structure Unsigned (x : Binary64) : Prop where
  number : x.isNaN = false
  positive : x.negative = false

variable {x y : Binary64}

-----------------------------------------------------------------------------------------
-- Rounding
-----------------------------------------------------------------------------------------

/-- What is at most a certain magnitude is not rounded beyond it. -/
theorem NearestUpTo.le_of_le {limit bound magnitude : Nat} {q : ℚ}
    (nearest : NearestUpTo limit q magnitude) (inside : bound ≤ limit) (low : q ≤ unitsOf bound)
    : magnitude ≤ bound := by
  by_contra beyond
  have more : (unitsOf bound : ℚ) < unitsOf magnitude := by
    exact_mod_cast unitsOf_strictMono (Nat.lt_of_not_le beyond)
  have nearer := nearest.closest bound inside
  simp only [distance] at nearer
  grind

theorem nearestMagnitude_le_of_le {numerator denominator bound : Nat} (positive : 0 < denominator)
    (inside : bound ≤ infiniteMagnitude) (low : numerator ≤ unitsOf bound * denominator)
    : nearestMagnitude numerator denominator ≤ bound := by
  refine (nearest_nearestMagnitude numerator positive).le_of_le inside ?_
  have positive' : (0 : ℚ) < denominator := by exact_mod_cast positive
  rw [div_le_iff₀ positive']
  exact_mod_cast low

theorem unsigned_zero
    : zero.Unsigned :=
  ⟨rfl, rfl⟩

theorem unsigned_rounded (numerator denominator : Nat)
    : (rounded false numerator denominator).Unsigned :=
  ⟨decide_eq_false (Nat.not_lt.mpr (nearestMagnitude_le ..)), rfl⟩

theorem unsigned_ofNat (n : Nat)
    : (ofNat n).Unsigned :=
  unsigned_rounded ..

theorem isNaN_toBinary64 (x : Decimal) (negative : Bool)
    : (x.toBinary64 negative).isNaN = false :=
  decide_eq_false (Nat.not_lt.mpr x.nearestMagnitude_le)

theorem unsigned_toBinary64 (x : Decimal)
    : (x.toBinary64 false).Unsigned :=
  ⟨isNaN_toBinary64 x false, rfl⟩

-----------------------------------------------------------------------------------------
-- Powers of two
-----------------------------------------------------------------------------------------

theorem unsigned_powerOfTwo {k : ℤ} (high : k ≤ 1023)
    : (powerOfTwo k).Unsigned :=
  ⟨isNaN_of_isFinite (isFinite_powerOfTwo high), rfl⟩

theorem isZero_powerOfTwo {k : ℤ} (low : -1022 ≤ k)
    : (powerOfTwo k).isZero = false := by
  apply beq_eq_false_iff_ne.mpr
  have some : 1 ≤ min 2047 (k + 1023).toNat := by omega
  exact Nat.mul_ne_zero (Nat.ne_of_gt some) (by decide)

theorem units_powerOfTwo_le {k : ℤ} (low : -1022 ≤ k) (high : k ≤ 0)
    : (powerOfTwo k).units ≤ unitsPerOne := by
  have places : (k + 1074).toNat ≤ 1074 := by omega
  rw [units_powerOfTwo low (by omega), unitsPerOne_eq]
  exact pow_le_pow_right₀ one_le_two places

-----------------------------------------------------------------------------------------
-- Sums and products
-----------------------------------------------------------------------------------------

theorem signedUnits_nonneg (positive : x.negative = false)
    : 0 ≤ x.signedUnits := by
  simp [signedUnits, positive]

theorem Unsigned.add (left : x.Unsigned) (right : y.Unsigned)
    : (x.add y).Unsigned := by
  have same : (x.negative != y.negative) = false := by rw [left.positive, right.positive]; rfl
  simp only [Binary64.add, left.number, right.number, same, Bool.or_self, Bool.and_false,
    Bool.false_eq_true, if_false]
  split
  next => exact left
  split
  next => exact right
  have sum := add_nonneg (signedUnits_nonneg left.positive) (signedUnits_nonneg right.positive)
  have sign : (if x.signedUnits + y.signedUnits = 0 then x.negative && y.negative
      else decide (x.signedUnits + y.signedUnits < 0)) = false := by
    rw [left.positive]
    split
    · rfl
    · exact decide_eq_false (not_lt.mpr sum)
  rw [sign]
  exact unsigned_rounded ..

/-- Only a product of zero and infinity has no result. -/
theorem Unsigned.mul (left : x.Unsigned) (right : y.Unsigned) (finite : y.isFinite = true)
    (defined : x.isFinite = true ∨ y.isZero = false)
    : (x.mul y).Unsigned := by
  have same : (x.negative != y.negative) = false := by rw [left.positive, right.positive]; rfl
  simp only [Binary64.mul, left.number, right.number, same, isInfinite_of_isFinite finite,
    Bool.or_self, Bool.or_false, Bool.false_eq_true, if_false]
  split
  next infinite =>
    have large : x.magnitude = infiniteMagnitude := beq_iff_eq.mp infinite
    have notZero : x.isZero = false := by
      rw [isZero, large]
      rfl
    have notFinite : x.isFinite ≠ true := by simp [isFinite, large]
    rw [notZero, defined.resolve_left notFinite, Bool.or_self, if_neg Bool.false_ne_true]
    exact ⟨decide_eq_false (Nat.lt_irrefl _), rfl⟩
  next => exact unsigned_rounded ..

theorem isFinite_mul_of_le_one (xFinite : x.isFinite = true) (yFinite : y.isFinite = true)
    (small : y.units ≤ unitsPerOne)
    : (x.mul y).isFinite = true := by
  have inside : x.magnitude < infiniteMagnitude := of_decide_eq_true xFinite
  rw [mul_of_finite xFinite yFinite]
  apply decide_eq_true
  refine Nat.lt_of_le_of_lt ?_ inside
  exact nearestMagnitude_le_of_le unitsPerOne_pos (Nat.le_of_lt inside)
    (Nat.mul_le_mul_left _ small)

-----------------------------------------------------------------------------------------
-- Scaling
-----------------------------------------------------------------------------------------

/-- By induction on the steps, each of which multiplies finite numbers. -/
theorem Unsigned.scaleByTwo {k : ℤ} (unsigned : x.Unsigned)
    : (x.scaleByTwo k).Unsigned := by
  induction x, k using Binary64.scaleByTwo.induct with
  | case1 x k done =>
      rw [Binary64.scaleByTwo, if_pos done]
      exact unsigned
  | case2 x k unfinished ih =>
      have finite : x.isFinite = true := by
        by_contra infinite
        exact unfinished (.inr (.inr infinite))
      have high : scalingStep k ≤ 1023 := by
        simp only [scalingStep]
        omega
      rw [Binary64.scaleByTwo, if_neg unfinished]
      exact ih (unsigned.mul (unsigned_powerOfTwo high) (isFinite_powerOfTwo high) (.inl finite))

theorem Unsigned.scaleByTen (unsigned : x.Unsigned) (k : ℤ)
    : (x.scaleByTen k).Unsigned := by
  rw [Binary64.scaleByTen]
  split
  · rw [unsigned.positive]
    exact unsigned_toBinary64 _
  · exact unsigned

end Numeral.Binary64
