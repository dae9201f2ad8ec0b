import Numeral.Binary64.Rounding
import Numeral.Text.Digit

/-! Exact decimal numbers and the binary64 number nearest to one. -/

namespace Numeral

/-- The number `coefficient * 10 ^ exponent`. -/
structure Decimal where
  coefficient : Nat
  exponent : Int
deriving DecidableEq

namespace Decimal

/-- The number written by the digits `whole`, a point, the digits `fraction` and an exponent. -/
def ofDigits (whole fraction : List Nat) (exponent : Int) : Decimal where
  coefficient := Digit.number 10 (whole ++ fraction)
  exponent := exponent - fraction.length

/-- The number times `10 ^ k`. -/
def scaleByTen (x : Decimal) (k : Int) : Decimal :=
  { x with exponent := x.exponent + k }

/-- The binary64 magnitude nearest to the number. The first three cases decide by size alone,
so that no power of ten is ever larger than the digits call for: from `10 ^ 310` on everything
is infinite, and below `10 ^ -330` everything is zero.
-/
def nearestMagnitude (x : Decimal) : Nat :=
  if x.coefficient = 0 then 0
  else if 310 ≤ x.exponent then Binary64.infiniteMagnitude
  else if x.coefficient.log2 + 1 + x.exponent < -330 then 0
  else
    Binary64.nearestMagnitude
      (x.coefficient * Nat.pow 10 x.exponent.toNat * Binary64.unitsPerOne)
      (Nat.pow 10 (-x.exponent).toNat)

theorem nearestMagnitude_le (x : Decimal)
    : x.nearestMagnitude ≤ Binary64.infiniteMagnitude := by
  simp only [nearestMagnitude]
  split
  · exact Nat.zero_le _
  · split
    · exact Nat.le_refl _
    · split
      · exact Nat.zero_le _
      · exact Binary64.nearestMagnitude_le ..

/-- The binary64 number of the given sign nearest to the number. -/
def toBinary64 (x : Decimal) (negative : Bool) : Binary64 where
  negative := negative
  magnitude := x.nearestMagnitude
  magnitude_lt := Nat.lt_of_le_of_lt x.nearestMagnitude_le Binary64.infiniteMagnitude_lt

end Decimal

end Numeral
