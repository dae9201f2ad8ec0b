import Numeral.Binary64.Arithmetic
import Numeral.Proofs.Binary64.Rounding

/-! Arithmetic that rounds nothing. An operation whose exact result is a number of the format
gives that number. Multiplying by a power of two has such a result as soon as it has one for a
power beyond, so that scaling in steps is exact wherever it could be.
-/

namespace Numeral.Binary64

/-- The number as a rational, if it is finite. -/
def toRat (x : Binary64) : ℚ :=
  x.signedUnits / unitsPerOne

theorem unitsPerOne_eq
    : unitsPerOne = 2 ^ 1074 := by
  decide +kernel

theorem cast_unitsPerOne
    : (unitsPerOne : ℚ) = 2 ^ (1074 : ℤ) := by
  have power {n : ℕ} (same : unitsPerOne = 2 ^ n) : (unitsPerOne : ℚ) = 2 ^ (n : ℤ) := by
    rw [same, Nat.cast_pow, Nat.cast_two, zpow_natCast]
  have exactly := power unitsPerOne_eq
  rwa [Nat.cast_ofNat] at exactly

theorem cast_unitsPerOne_ne_zero
    : (unitsPerOne : ℚ) ≠ 0 :=
  Nat.cast_ne_zero.mpr (Nat.ne_of_gt unitsPerOne_pos)

/-- Of the same sign the values have the ratio of the units. -/
theorem units_eq_of_toRat {x y : Binary64} {q : ℚ} (sign : y.negative = x.negative)
    (value : y.toRat = x.toRat * q)
    : (y.units : ℚ) = x.units * q := by
  rw [toRat, toRat, div_mul_eq_mul_div, div_left_inj' cast_unitsPerOne_ne_zero, signedUnits,
    signedUnits, sign] at value
  cases negative : x.negative with
  | false => simpa [negative] using value
  | true => simpa [negative] using value

-----------------------------------------------------------------------------------------
-- Numbers by their units
-----------------------------------------------------------------------------------------

theorem units_lt {x : Binary64} (finite : x.isFinite = true)
    : x.units < unitsOf infiniteMagnitude :=
  unitsOf_strictMono (of_decide_eq_true finite)

/-- A number is told by its sign and its units. -/
theorem eq_of_units {x y : Binary64} (sign : x.negative = y.negative) (same : x.units = y.units)
    : x = y := by
  rcases x with ⟨negative, magnitude, _⟩
  rcases y with ⟨negative', magnitude', _⟩
  obtain rfl : magnitude = magnitude' := unitsOf_strictMono.injective same
  obtain rfl : negative = negative' := sign
  rfl

/-- Few bits at any place below the end of the finite numbers are a magnitude. -/
theorem exists_magnitude {j e : Nat} (few : j < 2 ^ 53)
    (inside : j * 2 ^ e < unitsOf infiniteMagnitude)
    : ∃ magnitude < infiniteMagnitude, unitsOf magnitude = j * 2 ^ e := by
  induction e generalizing j with
  | zero =>
      have units := unitsOf_grid (k := 0) (Nat.le_of_lt few) (.inl rfl)
      rw [← units] at inside ⊢
      exact ⟨_, unitsOf_strictMono.lt_iff_lt.mp inside, rfl⟩
  | succ e ih =>
      rcases Nat.lt_or_ge j (2 ^ 52) with subnormal | normal
      · -- A place further down takes the same bits shifted up.
        have shifted : j * 2 ^ (e + 1) = 2 * j * 2 ^ e := by ring
        rw [shifted] at inside ⊢
        exact ih (by omega) inside
      · have units := unitsOf_grid (k := e + 1) (Nat.le_of_lt few) (.inr normal)
        rw [← units] at inside ⊢
        exact ⟨_, unitsOf_strictMono.lt_iff_lt.mp inside, rfl⟩

theorem exists_number (negative : Bool) {j e : Nat} (few : j < 2 ^ 53)
    (inside : j * 2 ^ e < unitsOf infiniteMagnitude)
    : ∃ x : Binary64, x.isFinite = true ∧ x.negative = negative ∧ x.units = j * 2 ^ e := by
  obtain ⟨magnitude, finite, units⟩ := exists_magnitude few inside
  exact ⟨⟨negative, magnitude, Nat.lt_trans finite infiniteMagnitude_lt⟩,
    decide_eq_true finite, rfl, units⟩

/-- A number shifted up is a number as long as it stays below the end. -/
theorem exists_shifted {x : Binary64} {k : ℤ} (up : 0 ≤ k)
    (inside : (x.units * 2 ^ k : ℚ) < unitsOf infiniteMagnitude)
    : ∃ y : Binary64,
        y.isFinite = true ∧ y.negative = x.negative ∧ (y.units : ℚ) = x.units * 2 ^ k := by
  obtain ⟨count, rfl⟩ := Int.eq_ofNat_of_zero_le up
  obtain ⟨e, j, grid, few, normal⟩ := exists_grid x.magnitude
  have units : x.units = j * 2 ^ e := by
    rw [Binary64.units, grid, unitsOf_grid (Nat.le_of_lt few) normal]
  have shifted : (x.units * 2 ^ (count : ℤ) : ℚ) = (j * 2 ^ (e + count) : ℕ) := by
    rw [units, zpow_natCast]
    push_cast
    rw [mul_assoc, ← pow_add]
  rw [shifted] at inside ⊢
  obtain ⟨y, finite, sign, same⟩ := exists_number x.negative few (Nat.cast_lt.mp inside)
  exact ⟨y, finite, sign, congrArg Nat.cast same⟩

-----------------------------------------------------------------------------------------
-- Operations
-----------------------------------------------------------------------------------------

/-- A quotient that is a number of units is rounded to that number. -/
theorem rounded_eq {x : Binary64} (finite : x.isFinite = true) {numerator denominator : Nat}
    (positive : 0 < denominator) (exact : numerator = x.units * denominator)
    : rounded x.negative numerator denominator = x := by
  have inside : x.magnitude ≤ infiniteMagnitude := Nat.le_of_lt (of_decide_eq_true finite)
  have quotient : (numerator : ℚ) / denominator = unitsOf x.magnitude := by
    have nonzero : (denominator : ℚ) ≠ 0 := by exact_mod_cast Nat.ne_of_gt positive
    rw [div_eq_iff nonzero, exact, units, Nat.cast_mul]
  have nearest := nearest_nearestMagnitude numerator positive
  rw [quotient] at nearest
  have same : nearestMagnitude numerator denominator = x.magnitude :=
    nearest.unique (.of_unitsOf inside)
  simp only [rounded, same]

theorem isNaN_of_isFinite {x : Binary64} (finite : x.isFinite = true)
    : x.isNaN = false :=
  decide_eq_false (Nat.not_lt.mpr (Nat.le_of_lt (of_decide_eq_true finite)))

theorem isInfinite_of_isFinite {x : Binary64} (finite : x.isFinite = true)
    : x.isInfinite = false :=
  beq_eq_false_iff_ne.mpr (Nat.ne_of_lt (of_decide_eq_true finite))

/-- The sum of numbers that are not negative is rounded. -/
theorem add_of_finite {x y : Binary64} (xFinite : x.isFinite = true) (yFinite : y.isFinite = true)
    (xSign : x.negative = false) (ySign : y.negative = false)
    : x.add y = rounded false (x.units + y.units) 1 := by
  have signed : x.signedUnits + y.signedUnits = (x.units + y.units : ℕ) := by
    simp [signedUnits, xSign, ySign]
  have positive : (if ((x.units + y.units : ℕ) : ℤ) = 0 then x.negative && y.negative
      else decide (((x.units + y.units : ℕ) : ℤ) < 0)) = false := by
    rw [xSign]
    split
    · rfl
    · exact decide_eq_false (by omega)
  simp only [add, isNaN_of_isFinite xFinite, isNaN_of_isFinite yFinite,
    isInfinite_of_isFinite xFinite, isInfinite_of_isFinite yFinite, Bool.or_self,
    Bool.false_eq_true, if_false, signed, positive, Int.natAbs_natCast]

/-- They add up exactly if the sum is a number. -/
theorem add_eq {x y z : Binary64} (xFinite : x.isFinite = true) (yFinite : y.isFinite = true)
    (zFinite : z.isFinite = true) (xSign : x.negative = false) (ySign : y.negative = false)
    (zSign : z.negative = false) (sum : z.units = x.units + y.units)
    : x.add y = z := by
  rw [add_of_finite xFinite yFinite xSign ySign, ← zSign]
  exact rounded_eq zFinite Nat.one_pos (by rw [sum, Nat.mul_one])

/-- The powers of two that are normal numbers. -/
theorem units_powerOfTwo {k : ℤ} (low : -1022 ≤ k) (high : k ≤ 1023)
    : (powerOfTwo k).units = 2 ^ (k + 1074).toNat := by
  have grid : min 2047 (k + 1023).toNat * 2 ^ 52 = (k + 1022).toNat * 2 ^ 52 + 2 ^ 52 := by omega
  have exponent : (k + 1074).toNat = 52 + (k + 1022).toNat := by omega
  simp only [units, powerOfTwo, fractionBits, Nat.pow_eq, grid]
  rw [unitsOf_grid (by omega) (Or.inr (Nat.le_refl _)), exponent, Nat.pow_add]

theorem isFinite_powerOfTwo {k : ℤ} (high : k ≤ 1023)
    : (powerOfTwo k).isFinite = true := by
  apply decide_eq_true
  simp only [powerOfTwo, infiniteMagnitude, fractionBits, Nat.pow_eq]
  omega

theorem mul_of_finite {x y : Binary64} (xFinite : x.isFinite = true) (yFinite : y.isFinite = true)
    : x.mul y = rounded (x.negative != y.negative) (x.units * y.units) unitsPerOne := by
  simp only [mul, isNaN_of_isFinite xFinite, isNaN_of_isFinite yFinite,
    isInfinite_of_isFinite xFinite, isInfinite_of_isFinite yFinite, Bool.or_self,
    Bool.false_eq_true, if_false]

/-- A product is exact if it is a number. -/
theorem mul_eq {x y z : Binary64} (xFinite : x.isFinite = true) (yFinite : y.isFinite = true)
    (zFinite : z.isFinite = true) (sign : z.negative = (x.negative != y.negative))
    (product : x.units * y.units = z.units * unitsPerOne)
    : x.mul y = z := by
  rw [mul_of_finite xFinite yFinite, ← sign]
  exact rounded_eq zFinite unitsPerOne_pos product

/-- A multiple of a normal power of two is exact if it is a number. -/
theorem mul_powerOfTwo_eq {x y : Binary64} {k : ℤ} (low : -1022 ≤ k) (high : k ≤ 1023)
    (xFinite : x.isFinite = true) (yFinite : y.isFinite = true)
    (sign : y.negative = x.negative) (scaled : (y.units : ℚ) = x.units * 2 ^ k)
    : x.mul (powerOfTwo k) = y := by
  have positive : y.negative = (x.negative != (powerOfTwo k).negative) := by
    rw [sign]
    exact (Bool.bne_false _).symm
  refine mul_eq xFinite (isFinite_powerOfTwo high) yFinite positive ?_
  have places : ((2 ^ (k + 1074).toNat : ℕ) : ℚ) = 2 ^ k * unitsPerOne := by
    rw [Nat.cast_pow, Nat.cast_two, ← zpow_natCast, Int.toNat_of_nonneg (by omega),
      zpow_add₀ two_ne_zero, cast_unitsPerOne]
  have exactly : (x.units * (2 ^ (k + 1074).toNat : ℕ) : ℚ) = y.units * unitsPerOne := by
    rw [places, scaled, mul_assoc]
  rw [units_powerOfTwo low high]
  exact_mod_cast exactly

-----------------------------------------------------------------------------------------
-- Natural numbers
-----------------------------------------------------------------------------------------

/-- A natural number of few bits is a number. -/
theorem ofNat_exact {n : Nat} (few : n < 2 ^ 53)
    : (ofNat n).isFinite = true
      ∧ (ofNat n).negative = false
      ∧ (ofNat n).units = n * unitsPerOne := by
  have inside : n * unitsPerOne < unitsOf infiniteMagnitude := by
    have enough : 2 ^ 53 * unitsPerOne < unitsOf infiniteMagnitude := by decide +kernel
    exact Nat.lt_trans (Nat.mul_lt_mul_of_pos_right few unitsPerOne_pos) enough
  rw [unitsPerOne_eq] at inside
  obtain ⟨x, finite, sign, units⟩ := exists_number false few inside
  rw [← unitsPerOne_eq] at units
  have same : ofNat n = x := by
    rw [ofNat, ← sign]
    exact rounded_eq finite Nat.one_pos (by rw [units, Nat.mul_one])
  rw [same]
  exact ⟨finite, sign, units⟩

theorem toRat_ofNat {n : Nat} (few : n < 2 ^ 53)
    : (ofNat n).toRat = n := by
  obtain ⟨-, sign, units⟩ := ofNat_exact few
  rw [toRat, signedUnits, sign, units, div_eq_iff cast_unitsPerOne_ne_zero]
  push_cast
  rfl

/-- One more digit in a place below is exact as long as there are few bits. -/
theorem mul_add_ofNat {n digit bits : Nat} (normal : bits ≤ 1023)
    (few : n * 2 ^ bits + digit < 2 ^ 53)
    : ((ofNat n).mul (powerOfTwo bits)).add (ofNat digit) = ofNat (n * 2 ^ bits + digit) := by
  have fewer : n ≤ n * 2 ^ bits := Nat.le_mul_of_pos_right n (Nat.two_pow_pos bits)
  obtain ⟨finite, sign, units⟩ := ofNat_exact (n := n) (by omega)
  obtain ⟨shiftedFinite, shiftedSign, shiftedUnits⟩ := ofNat_exact (n := n * 2 ^ bits) (by omega)
  obtain ⟨digitFinite, digitSign, digitUnits⟩ := ofNat_exact (n := digit) (by omega)
  obtain ⟨sumFinite, sumSign, sumUnits⟩ := ofNat_exact few
  have shifted : (ofNat n).mul (powerOfTwo bits) = ofNat (n * 2 ^ bits) := by
    refine mul_powerOfTwo_eq (by omega) (by omega) finite shiftedFinite
      (shiftedSign.trans sign.symm) ?_
    rw [shiftedUnits, units, zpow_natCast]
    push_cast
    ring
  rw [shifted]
  refine add_eq shiftedFinite digitFinite sumFinite shiftedSign digitSign sumSign ?_
  rw [sumUnits, shiftedUnits, digitUnits, Nat.add_mul]

-----------------------------------------------------------------------------------------
-- Scaling
-----------------------------------------------------------------------------------------

/-- What is scaled to a number is a number too wherever the scaling is stopped on the way: going
up it is smaller than the result, and going down it is the result shifted up.
-/
theorem exists_on_the_way {x y : Binary64} {k step : ℤ} (xFinite : x.isFinite = true)
    (yFinite : y.isFinite = true) (sign : y.negative = x.negative)
    (scaled : (y.units : ℚ) = x.units * 2 ^ k)
    (between : (0 ≤ step ∧ step ≤ k) ∨ (k ≤ step ∧ step ≤ 0))
    : ∃ z : Binary64,
        z.isFinite = true ∧ z.negative = x.negative ∧ (z.units : ℚ) = x.units * 2 ^ step := by
  rcases between with ⟨up, short⟩ | ⟨short, down⟩
  · refine exists_shifted up ?_
    calc (x.units * 2 ^ step : ℚ)
      _ ≤ x.units * 2 ^ k := by
        gcongr
        exact one_le_two
      _ = y.units := scaled.symm
      _ < unitsOf infiniteMagnitude := Nat.cast_lt.mpr (units_lt yFinite)
  · have back : (y.units * 2 ^ (step - k) : ℚ) = x.units * 2 ^ step := by
      rw [scaled, mul_assoc, ← zpow_add₀ two_ne_zero, add_sub_cancel]
    obtain ⟨z, finite, same, shifted⟩ := exists_shifted (x := y) (k := step - k) (by omega) (by
      rw [back]
      calc (x.units * 2 ^ step : ℚ)
        _ ≤ x.units * 2 ^ (0 : ℤ) := by
          gcongr
          exact one_le_two
        _ = x.units := by rw [zpow_zero, mul_one]
        _ < unitsOf infiniteMagnitude := Nat.cast_lt.mpr (units_lt xFinite))
    exact ⟨z, finite, same.trans sign, shifted.trans back⟩

theorem scalingStep_between (k : ℤ)
    : (0 ≤ scalingStep k ∧ scalingStep k ≤ k) ∨ (k ≤ scalingStep k ∧ scalingStep k ≤ 0) := by
  simp only [scalingStep]
  omega

/-- Scaling by a power of two is exact if the result is a number, however many steps it takes: by
induction on the steps, each of which leads to a number that is still to be scaled to the result.
-/
theorem scaleByTwo_eq {x y : Binary64} {k : ℤ} (xFinite : x.isFinite = true)
    (yFinite : y.isFinite = true) (sign : y.negative = x.negative)
    (scaled : (y.units : ℚ) = x.units * 2 ^ k)
    : x.scaleByTwo k = y := by
  induction x, k using scaleByTwo.induct with
  | case1 x k done =>
      rw [scaleByTwo, if_pos done]
      refine eq_of_units sign.symm ?_
      rcases done with rfl | zero | infinite
      · rw [zpow_zero, mul_one] at scaled
        exact_mod_cast scaled.symm
      · have nothing : x.units = 0 := by
          rw [units, beq_iff_eq.mp zero]
          rfl
        rw [nothing, Nat.cast_zero, zero_mul] at scaled
        rw [nothing]
        exact_mod_cast scaled.symm
      · exact (infinite xFinite).elim
  | case2 x k unfinished ih =>
      obtain ⟨z, zFinite, zSign, onTheWay⟩ :=
        exists_on_the_way xFinite yFinite sign scaled (scalingStep_between k)
      have step : x.mul (powerOfTwo (scalingStep k)) = z :=
        mul_powerOfTwo_eq (by simp only [scalingStep]; omega) (by simp only [scalingStep]; omega)
          xFinite zFinite zSign onTheWay
      rw [scaleByTwo, if_neg unfinished, step]
      rw [step] at ih
      refine ih zFinite (sign.trans zSign.symm) ?_
      rw [onTheWay, scaled, mul_assoc, ← zpow_add₀ two_ne_zero, add_sub_cancel]

theorem scaleByTwo_ofNat {x : Binary64} {n : Nat} {k : ℤ} (few : n < 2 ^ 53)
    (finite : x.isFinite = true) (positive : x.negative = false) (value : x.toRat = n * 2 ^ k)
    : (ofNat n).scaleByTwo k = x := by
  obtain ⟨ofNatFinite, ofNatSign, -⟩ := ofNat_exact few
  have sign : x.negative = (ofNat n).negative := positive.trans ofNatSign.symm
  rw [← toRat_ofNat few] at value
  exact scaleByTwo_eq ofNatFinite finite sign (units_eq_of_toRat sign value)

end Numeral.Binary64
