import Mathlib.Algebra.Order.Field.Rat
import Mathlib.Data.Rat.Cast.Order
import Mathlib.Order.Monotone.Basic
import Mathlib.Tactic.FieldSimp
import Mathlib.Tactic.Linarith
import Mathlib.Tactic.Positivity
import Mathlib.Tactic.Ring
import Numeral.Binary64.Rounding

/-! Correct rounding of rationals. The magnitude computed from a quotient is the nearest
one, the even one of two that are equally near, and no other magnitude is either.
-/

namespace Numeral.Binary64

/-- From `k * 2 ^ 52` on the magnitudes are `2 ^ k` units apart, until the next power of two
has been passed.
-/
theorem unitsOf_grid {k j : Nat} (top : j ≤ 2 ^ 53) (normal : k = 0 ∨ 2 ^ 52 ≤ j)
    : unitsOf (k * 2 ^ 52 + j) = j * 2 ^ k := by
  rcases Nat.lt_or_ge j (2 ^ 52) with subnormal | high
  · have zero : k = 0 := by omega
    subst zero
    simp only [unitsOf, fractionBits, Nat.pow_eq, Nat.zero_mul, Nat.zero_add,
      Nat.div_eq_of_lt subnormal, if_true, Nat.mod_eq_of_lt subnormal, Nat.pow_zero, Nat.mul_one]
  · rcases Nat.lt_or_ge j (2 ^ 53) with inside | end_
    · have exponent : (k * 2 ^ 52 + j) / 2 ^ 52 = k + 1 := by omega
      have fraction : (k * 2 ^ 52 + j) % 2 ^ 52 = j - 2 ^ 52 := by omega
      simp only [unitsOf, fractionBits, Nat.pow_eq, exponent, fraction, Nat.add_one_ne_zero,
        if_false, Nat.add_sub_cancel]
      rw [Nat.add_sub_cancel' high]
    · obtain rfl : j = 2 ^ 53 := Nat.le_antisymm top end_
      have exponent : (k * 2 ^ 52 + 2 ^ 53) / 2 ^ 52 = k + 2 := by omega
      have fraction : (k * 2 ^ 52 + 2 ^ 53) % 2 ^ 52 = 0 := by omega
      simp only [unitsOf, fractionBits, Nat.pow_eq, exponent, fraction, Nat.add_one_ne_zero,
        if_false]
      rw [show k + 2 - 1 = k + 1 from rfl, Nat.pow_succ]
      omega

/-- Every magnitude is a point of one of the grids. -/
theorem exists_grid (magnitude : Nat)
    : ∃ k j, magnitude = k * 2 ^ 52 + j ∧ j < 2 ^ 53 ∧ (k = 0 ∨ 2 ^ 52 ≤ j) :=
  ⟨magnitude / 2 ^ 52 - 1, magnitude - (magnitude / 2 ^ 52 - 1) * 2 ^ 52, by omega, by omega,
    by omega⟩

/-- Magnitudes are ordered as their values are. -/
theorem unitsOf_strictMono : StrictMono unitsOf := by
  refine strictMono_nat_of_lt_succ fun magnitude => ?_
  obtain ⟨k, j, rfl, inside, normal⟩ := exists_grid magnitude
  rw [Nat.add_assoc, unitsOf_grid (Nat.le_of_lt inside) normal,
    unitsOf_grid (by omega) (by omega)]
  exact Nat.mul_lt_mul_of_pos_right (Nat.lt_succ_self j) (Nat.two_pow_pos k)

/-- Infinity stands where `2 ^ 1024` would stand. -/
theorem unitsOf_infiniteMagnitude
    : unitsOf infiniteMagnitude = 2 ^ 1024 * unitsPerOne := by
  decide +kernel

/-- How far a magnitude is from `q` units. -/
def distance (q : ℚ) (magnitude : Nat) : ℚ :=
  |(unitsOf magnitude : ℚ) - q|

/-- No magnitude up to `limit` is nearer to `q` units, and none is equally near if this one
is odd.
-/
structure NearestUpTo (limit : Nat) (q : ℚ) (magnitude : Nat) : Prop where
  le_limit : magnitude ≤ limit
  closest : ∀ other ≤ limit, distance q magnitude ≤ distance q other
  even
    : ∀ other ≤ limit,
        other ≠ magnitude → distance q other = distance q magnitude → magnitude % 2 = 0

/-- The magnitude is `q` units, correctly rounded. Infinity stands where the next power of two
would stand if the exponents went on, so what is nearer to that than to the largest finite
magnitude is infinite.
-/
def Nearest (q : ℚ) (magnitude : Nat) : Prop :=
  NearestUpTo infiniteMagnitude q magnitude

/-- The number is `q`, correctly rounded. -/
structure Rounds (q : ℚ) (x : Binary64) : Prop where
  sign : x.negative = decide (q < 0)
  magnitude : Nearest (|q| * unitsPerOne) x.magnitude

theorem distance_eq_zero_iff {q : ℚ} {magnitude : Nat}
    : distance q magnitude = 0 ↔ (unitsOf magnitude : ℚ) = q := by
  rw [distance, abs_eq_zero, sub_eq_zero]

/-- Of two magnitudes as near as any, both would be even, and the one between them nearer. -/
theorem NearestUpTo.not_lt {limit : Nat} {q : ℚ} {low high : Nat}
    (first : NearestUpTo limit q low) (second : NearestUpTo limit q high)
    : ¬ low < high := by
  intro less
  have same : distance q low = distance q high :=
    le_antisymm (first.closest high second.le_limit) (second.closest low first.le_limit)
  have lowEven := first.even high second.le_limit (Nat.ne_of_gt less) same.symm
  have highEven := second.even low first.le_limit (Nat.ne_of_lt less) same
  have nearer := first.closest (low + 1) (by have := second.le_limit; omega)
  have below : (unitsOf low : ℚ) < unitsOf (low + 1) := by
    exact_mod_cast unitsOf_strictMono (Nat.lt_succ_self low)
  have above : (unitsOf (low + 1) : ℚ) < unitsOf high := by
    exact_mod_cast unitsOf_strictMono (by omega)
  simp only [distance] at same nearer
  grind

theorem NearestUpTo.unique {limit : Nat} {q : ℚ} {magnitude other : Nat}
    (first : NearestUpTo limit q magnitude) (second : NearestUpTo limit q other)
    : magnitude = other := by
  have one := first.not_lt second
  have two := second.not_lt first
  omega

/-- There is one way at most to round a number. -/
theorem Rounds.unique {q : ℚ} {x y : Binary64} (first : Rounds q x) (second : Rounds q y)
    : x = y := by
  rcases x with ⟨negative, magnitude, _⟩
  rcases y with ⟨negative', magnitude', _⟩
  have sign : negative = negative' := first.sign.trans second.sign.symm
  have same : magnitude = magnitude' := first.magnitude.unique second.magnitude
  subst sign same
  rfl

/-- The value of a magnitude is rounded to it. -/
theorem NearestUpTo.of_unitsOf {limit magnitude : Nat} (inside : magnitude ≤ limit)
    : NearestUpTo limit (unitsOf magnitude) magnitude := by
  have here : distance (unitsOf magnitude) magnitude = 0 := distance_eq_zero_iff.mpr rfl
  refine ⟨inside, fun other _ => ?_, fun other _ different same => ?_⟩
  · rw [here]
    exact abs_nonneg _
  · rw [here, distance_eq_zero_iff] at same
    exact (different (unitsOf_strictMono.injective (by exact_mod_cast same))).elim

/-- What lies at the limit or beyond is rounded to the limit. -/
theorem NearestUpTo.of_ge {limit : Nat} {q : ℚ} (beyond : (unitsOf limit : ℚ) ≤ q)
    : NearestUpTo limit q limit := by
  refine ⟨Nat.le_refl _, fun other inside => ?_, fun other inside different same => ?_⟩
  · have below : (unitsOf other : ℚ) ≤ unitsOf limit := by
      exact_mod_cast unitsOf_strictMono.monotone inside
    simp only [distance]
    grind
  · have below : (unitsOf other : ℚ) < unitsOf limit := by
      exact_mod_cast unitsOf_strictMono (Nat.lt_of_le_of_ne inside different)
    simp only [distance] at same
    grind

/-- What is no more than half a unit is rounded to zero. -/
theorem NearestUpTo.zero_of_le {limit : Nat} {q : ℚ} (nonnegative : 0 ≤ q) (small : q ≤ 1 / 2)
    : NearestUpTo limit q 0 := by
  have zero : (unitsOf 0 : ℚ) = 0 := by
    exact_mod_cast unitsOf_grid (k := 0) (j := 0) (by omega) (Or.inl rfl)
  have unit {other : Nat} (positive : 0 < other) : (1 : ℚ) ≤ unitsOf other := by
    have more := unitsOf_strictMono positive
    exact_mod_cast Nat.succ_le_of_lt (Nat.lt_of_le_of_lt (Nat.zero_le _) more)
  refine ⟨Nat.zero_le _, fun other _ => ?_, fun _ _ _ _ => rfl⟩
  rcases Nat.eq_zero_or_pos other with rfl | positive
  · exact le_refl _
  · have far := unit positive
    simp only [distance, zero]
    grind

end Numeral.Binary64
