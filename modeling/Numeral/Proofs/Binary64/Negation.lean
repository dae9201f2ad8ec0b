import Numeral.Literal.Exponent
import Numeral.Proofs.Binary64.Scaling

/-! Numbers with the other sign. The sign is one bit, and scaling never looks at it: a power of two
or of ten takes a number and its opposite to opposite numbers, bit for bit.
-/

namespace Numeral

/-- A bit above all others is added and toggled alike. -/
theorem two_pow_add_eq_xor {place n : Nat} (below : n < 2 ^ place)
    : 2 ^ place + n = n ^^^ 2 ^ place := by
  apply Nat.eq_of_testBit_eq
  intro index
  rw [Nat.testBit_xor, Nat.testBit_two_pow]
  rcases Nat.lt_trichotomy index place with lower | rfl | higher
  · rw [Nat.testBit_two_pow_add_gt lower, decide_eq_false (by omega), Bool.xor_false]
  · rw [Nat.testBit_two_pow_add_eq, decide_eq_true rfl, Bool.xor_true]
  · have power : 2 ^ (place + 1) ≤ 2 ^ index := Nat.pow_le_pow_right (by omega) higher
    have sum : 2 ^ place + n < 2 ^ index := by omega
    have alone : n < 2 ^ index := by omega
    rw [Nat.testBit_lt_two_pow sum, Nat.testBit_lt_two_pow alone, decide_eq_false (by omega),
      Bool.xor_false]

namespace Binary64

variable {x y : Binary64}

@[simp] theorem negative_neg (x : Binary64)
    : x.neg.negative = !x.negative := rfl

@[simp] theorem magnitude_neg (x : Binary64)
    : x.neg.magnitude = x.magnitude := rfl

@[simp] theorem units_neg (x : Binary64)
    : x.neg.units = x.units := rfl

@[simp] theorem isFinite_neg (x : Binary64)
    : x.neg.isFinite = x.isFinite := rfl

theorem neg_rounded (negative : Bool) (numerator denominator : Nat)
    : (rounded negative numerator denominator).neg = rounded (!negative) numerator denominator :=
  rfl

theorem neg_toBinary64 (decimal : Decimal) (negative : Bool)
    : (decimal.toBinary64 negative).neg = decimal.toBinary64 (!negative) :=
  rfl

theorem toNat_toBits (x : Binary64)
    : x.toBits.toNat = (if x.negative then 2 ^ 63 else 0) + x.magnitude := by
  have small := x.magnitude_lt
  rw [Nat.pow_eq] at small
  rw [toBits, UInt64.toNat_ofNat', Nat.pow_eq]
  apply Nat.mod_eq_of_lt
  split <;> omega

/-- The other sign is the highest bit toggled. -/
theorem toBits_neg (x : Binary64)
    : x.neg.toBits = x.toBits ^^^ 0x8000000000000000 := by
  have toggled := two_pow_add_eq_xor x.magnitude_lt
  have highest : (0x8000000000000000 : UInt64).toNat = 2 ^ 63 := rfl
  apply UInt64.toNat_inj.mp
  rw [UInt64.toNat_xor, toNat_toBits, toNat_toBits, highest, negative_neg, magnitude_neg]
  cases x.negative with
  | false =>
      rw [Bool.not_false, if_pos rfl, if_neg Bool.false_ne_true, Nat.zero_add]
      exact toggled
  | true =>
      rw [Bool.not_true, if_neg Bool.false_ne_true, if_pos rfl, Nat.zero_add, toggled,
        Nat.xor_assoc, Nat.xor_self, Nat.xor_zero]

/-- A product of finite numbers is rounded alike on either side of zero. -/
theorem neg_mul_of_finite (xFinite : x.isFinite = true) (yFinite : y.isFinite = true)
    : x.neg.mul y = (x.mul y).neg := by
  have sign : ((!x.negative) != y.negative) = !(x.negative != y.negative) := Bool.not_bne ..
  rw [mul_of_finite xFinite yFinite, neg_rounded, mul_of_finite (x := x.neg) xFinite yFinite,
    negative_neg, units_neg, sign]

/-- By induction on the turns, each of which multiplies finite numbers. -/
theorem scaleByTwo_neg (x : Binary64) (k : ℤ)
    : x.neg.scaleByTwo k = (x.scaleByTwo k).neg := by
  induction x, k using scaleByTwo.induct with
  | case1 x k done =>
      have opposite : k = 0 ∨ x.neg.isZero ∨ ¬ x.neg.isFinite := done
      rw [scaleByTwo_of_finished opposite, scaleByTwo_of_finished done]
  | case2 x k unfinished ih =>
      have finite := isFinite_of_unfinished unfinished
      have normal := isFinite_powerOfTwo (scalingStep_normal k).2
      have opposite : ¬ (k = 0 ∨ x.neg.isZero ∨ ¬ x.neg.isFinite) := unfinished
      have turn : x.scaleByTwo k
          = (x.mul (powerOfTwo (scalingStep k))).scaleByTwo (k - scalingStep k) := by
        rw [scaleByTwo, if_neg unfinished]
      rw [turn, ← ih, scaleByTwo, if_neg opposite, neg_mul_of_finite finite normal]

theorem scaleByTen_neg (x : Binary64) (k : ℤ)
    : x.neg.scaleByTen k = (x.scaleByTen k).neg := by
  rw [scaleByTen, scaleByTen, isFinite_neg, magnitude_neg, negative_neg]
  split
  · exact (neg_toBinary64 ..).symm
  · rfl

/-- What is not finite is not scaled. -/
theorem scaleByTen_of_infinite (infinite : x.isFinite = false) (k : ℤ)
    : x.scaleByTen k = x := by
  rw [scaleByTen, infinite, if_neg Bool.false_ne_true]

end Binary64

end Numeral
