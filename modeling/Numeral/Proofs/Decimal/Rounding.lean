import Mathlib.Algebra.Order.Field.Power
import Mathlib.Tactic.NormNum
import Numeral.Decimal.Basic
import Numeral.Proofs.Binary64.Rounding

/-! Decimal numbers are correctly rounded, those too that are told to be infinite or zero by
their size alone.
-/

namespace Numeral

open Binary64

namespace Decimal

/-- The number itself. -/
def toRat (x : Decimal) : ℚ :=
  x.coefficient * 10 ^ x.exponent

theorem toRat_nonneg (x : Decimal)
    : 0 ≤ x.toRat := by
  unfold toRat
  positivity

theorem unitsOf_infiniteMagnitude_le
    : unitsOf infiniteMagnitude ≤ 10 ^ 310 * unitsPerOne := by
  rw [unitsOf_infiniteMagnitude]
  exact Nat.mul_le_mul_right _ (by decide +kernel)

theorem two_mul_unitsPerOne_le
    : 2 * unitsPerOne ≤ 10 ^ 331 := by
  decide +kernel

theorem nearest_infinite {x : Decimal} (positive : x.coefficient ≠ 0)
    (large : 310 ≤ x.exponent)
    : Nearest (x.toRat * unitsPerOne) infiniteMagnitude := by
  apply NearestUpTo.of_ge
  have natural : x.toRat * unitsPerOne
      = (x.coefficient * 10 ^ x.exponent.toNat * unitsPerOne : Nat) := by
    have power : (10 : ℚ) ^ x.exponent = 10 ^ x.exponent.toNat := by
      rw [← zpow_natCast, Int.toNat_of_nonneg (by omega)]
    rw [toRat, power]
    push_cast
    rfl
  rw [natural]
  refine Nat.cast_le.mpr ?_
  calc unitsOf infiniteMagnitude
    _ ≤ 10 ^ 310 * unitsPerOne := unitsOf_infiniteMagnitude_le
    _ ≤ 10 ^ x.exponent.toNat * unitsPerOne :=
      Nat.mul_le_mul_right _ (pow_le_pow_right₀ (by omega) (by omega))
    _ ≤ x.coefficient * 10 ^ x.exponent.toNat * unitsPerOne :=
      Nat.mul_le_mul_right _ (Nat.le_mul_of_pos_left _ (Nat.pos_of_ne_zero positive))

theorem nearest_zero {x : Decimal} (small : x.toRat < 10 ^ (-331 : ℤ))
    : Nearest (x.toRat * unitsPerOne) 0 := by
  have units : (0 : ℚ) < unitsPerOne := Nat.cast_pos.mpr unitsPerOne_pos
  have half : (unitsPerOne : ℚ) ≤ 10 ^ 331 / 2 := by
    rw [le_div_iff₀ two_pos, mul_comm]
    exact_mod_cast two_mul_unitsPerOne_le
  apply NearestUpTo.zero_of_le (mul_nonneg x.toRat_nonneg (le_of_lt units))
  calc x.toRat * unitsPerOne
    _ ≤ 10 ^ (-331 : ℤ) * unitsPerOne :=
      mul_le_mul_of_nonneg_right (le_of_lt small) (le_of_lt units)
    _ ≤ 10 ^ (-331 : ℤ) * (10 ^ 331 / 2) :=
      mul_le_mul_of_nonneg_left half (by positivity)
    _ = 1 / 2 := by
      rw [zpow_neg, ← mul_div_assoc]
      exact congrArg (· / 2) (inv_mul_cancel₀ (by positivity))

/-- The exact quotient of units that is rounded when size alone does not decide. -/
theorem toRat_mul_unitsPerOne (x : Decimal)
    : x.toRat * unitsPerOne
      = (x.coefficient * 10 ^ x.exponent.toNat * unitsPerOne : Nat)
        / (10 ^ (-x.exponent).toNat : Nat) := by
  have power : (10 : ℚ) ^ x.exponent = 10 ^ x.exponent.toNat / 10 ^ (-x.exponent).toNat := by
    rw [← zpow_natCast, ← zpow_natCast, ← zpow_sub₀ (by norm_num)]
    congr 1
    omega
  rw [toRat, power]
  push_cast
  ring

theorem toRat_lt_of_log2 (x : Decimal)
    : x.toRat < 10 ^ ((x.coefficient.log2 : ℤ) + 1 + x.exponent) := by
  have digits : (x.coefficient : ℚ) < 10 ^ (x.coefficient.log2 + 1) := by
    calc (x.coefficient : ℚ)
      _ < 2 ^ (x.coefficient.log2 + 1) := by exact_mod_cast Nat.lt_log2_self
      _ ≤ 10 ^ (x.coefficient.log2 + 1) := pow_le_pow_left₀ (by norm_num) (by norm_num) _
  rw [zpow_add₀ (by norm_num), toRat]
  exact mul_lt_mul_of_pos_right (by exact_mod_cast digits) (by positivity)

/-- The magnitude of a decimal number is the number correctly rounded. -/
theorem nearest_nearestMagnitude (x : Decimal)
    : Nearest (x.toRat * unitsPerOne) x.nearestMagnitude := by
  unfold nearestMagnitude
  split
  next zero =>
    apply nearest_zero
    rw [toRat, zero, Nat.cast_zero, zero_mul]
    positivity
  next positive =>
    split
    next large => exact nearest_infinite positive large
    split
    next small =>
      apply nearest_zero
      calc x.toRat
        _ < 10 ^ ((x.coefficient.log2 : ℤ) + 1 + x.exponent) := x.toRat_lt_of_log2
        _ ≤ 10 ^ (-331 : ℤ) := zpow_le_zpow_right₀ (by norm_num) (by omega)
    next =>
      rw [toRat_mul_unitsPerOne]
      exact Binary64.nearest_nearestMagnitude _ (Nat.pow_pos (by omega))

theorem rounds_toBinary64 (x : Decimal)
    : Rounds x.toRat (x.toBinary64 false) where
  sign := by simp [toBinary64, x.toRat_nonneg]
  magnitude := by
    rw [abs_of_nonneg x.toRat_nonneg]
    exact x.nearest_nearestMagnitude

theorem nearestMagnitude_eq_infinite {x : Decimal} (positive : x.coefficient ≠ 0)
    (large : 310 ≤ x.exponent)
    : x.nearestMagnitude = infiniteMagnitude :=
  x.nearest_nearestMagnitude.unique (nearest_infinite positive large)

theorem nearestMagnitude_eq_zero {x : Decimal} (small : x.toRat < 10 ^ (-331 : ℤ))
    : x.nearestMagnitude = 0 :=
  x.nearest_nearestMagnitude.unique (nearest_zero small)

end Decimal

end Numeral
