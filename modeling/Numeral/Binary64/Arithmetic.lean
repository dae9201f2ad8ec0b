import Numeral.Binary64.Rounding

/-! Arithmetic on binary64 numbers: the exact result, rounded once. -/

namespace Numeral.Binary64

/-- The sum. Infinities of opposite signs have none, and opposite numbers give positive zero. -/
def add (x y : Binary64) : Binary64 :=
  if x.isNaN || y.isNaN then nan
  else if x.isInfinite then
    if y.isInfinite && x.negative != y.negative then nan else x
  else if y.isInfinite then y
  else
    let sum := x.signedUnits + y.signedUnits
    rounded (if sum = 0 then x.negative && y.negative else decide (sum < 0)) sum.natAbs 1

/-- The product. Zero times infinity has none. -/
def mul (x y : Binary64) : Binary64 :=
  let negative := x.negative != y.negative
  if x.isNaN || y.isNaN then nan
  else if x.isInfinite || y.isInfinite then
    if x.isZero || y.isZero then nan else infinity negative
  else rounded negative (x.units * y.units) unitsPerOne

def ofNat (n : Nat) : Binary64 :=
  rounded false (n * unitsPerOne) 1

/-- `2 ^ k` for the exponents of normal numbers, -1022 to 1023. Below them it is zero and
above them infinite.
-/
def powerOfTwo (k : Int) : Binary64 where
  negative := false
  magnitude := min 2047 (k + 1023).toNat * Nat.pow 2 fractionBits
  magnitude_lt :=
    Nat.lt_of_le_of_lt (Nat.mul_le_mul_right _ (Nat.min_le_left ..)) infiniteMagnitude_lt

/-- The largest part of the exponent `k` that one multiplication takes. -/
def scalingStep (k : Int) : Int :=
  max (-1000) (min 1000 k)

/-- `x * 2 ^ k` by multiplications with normal powers of two, each of which rounds. A zero
and what is not finite stay as they are.
-/
def scaleByTwo (x : Binary64) (k : Int) : Binary64 :=
  if k = 0 ∨ x.isZero ∨ ¬ x.isFinite then x
  else scaleByTwo (x.mul (powerOfTwo (scalingStep k))) (k - scalingStep k)
termination_by k.natAbs
decreasing_by
  rename_i unfinished
  have : k ≠ 0 := fun zero => unfinished (.inl zero)
  simp only [scalingStep]
  omega

end Numeral.Binary64
