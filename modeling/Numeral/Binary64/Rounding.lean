import Numeral.Binary64.Basic

/-! Rounding a quotient of natural numbers to the nearest binary64 magnitude. The magnitudes
between two powers of two lie on an even grid, so the grid is chosen by the size of the
quotient and the quotient is rounded to a whole number of its steps.
-/

namespace Numeral.Binary64

/-- The whole number nearest to `numerator / denominator`. Of two that are equally near it
is the even one.
-/
def roundHalfEven (numerator denominator : Nat) : Nat :=
  let quotient := numerator / denominator
  let twice := 2 * (numerator % denominator)
  if twice < denominator ∨ (twice = denominator ∧ quotient % 2 = 0) then quotient
  else quotient + 1

/-- The magnitude nearest to `numerator / denominator` units; a tie goes to the even
magnitude. With `k` so chosen that the quotient has at most 53 bits above `2 ^ k`, the steps
of the grid are `2 ^ k` units wide and its points are the magnitudes from `k * 2 ^ 52` on.
What would lie at or above the end of the finite magnitudes is infinite.
-/
def nearestMagnitude (numerator denominator : Nat) : Nat :=
  let k := (numerator / denominator).log2 - fractionBits
  min infiniteMagnitude
    (k * Nat.pow 2 fractionBits + roundHalfEven numerator (denominator * Nat.pow 2 k))

theorem nearestMagnitude_le (numerator denominator : Nat)
    : nearestMagnitude numerator denominator ≤ infiniteMagnitude :=
  Nat.min_le_left ..

/-- The number of the given sign nearest to `numerator / denominator` units. -/
def rounded (negative : Bool) (numerator denominator : Nat) : Binary64 where
  negative := negative
  magnitude := nearestMagnitude numerator denominator
  magnitude_lt := Nat.lt_of_le_of_lt (nearestMagnitude_le ..) infiniteMagnitude_lt

end Numeral.Binary64
