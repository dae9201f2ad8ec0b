import Numeral.Binary64.Arithmetic
import Numeral.Literal.Exponent
import Numeral.Literal.Significand

/-! The values that significands write. Binary and hexadecimal digits are added one by one,
decimal digits all at once.
-/

namespace Numeral

namespace Significand

/-- The number that binary digits in groups of `bits` write, each digit added with a rounding
of its own: the whole part from the left, then the fraction with ever smaller places.
-/
def accumulate (bits : Nat) (significand : Significand) : Binary64 :=
  let base := Binary64.powerOfTwo bits
  let part := Binary64.powerOfTwo (-bits)
  let whole :=
    significand.whole.foldl (fun sum digit => (sum.mul base).add (.ofNat digit)) Binary64.zero
  (significand.fraction.foldl
    (fun (sum, place) digit => (sum.add ((Binary64.ofNat digit).mul place), place.mul part))
    (whole, part)).1

/-- The decimal number that the digits write, with the exponent `k`. -/
def toDecimal (significand : Significand) (k : Int) : Decimal :=
  .ofDigits significand.whole significand.fraction k

end Significand

namespace Radix

/-- The value of a significand. Decimal digits are rounded once, together. -/
def value (radix : Radix) (significand : Significand) : Binary64 :=
  match radix with
  | binary => significand.accumulate 1
  | hexadecimal => significand.accumulate 4
  | decimal => (significand.toDecimal 0).toBinary64 false

/-- The value of a significand times `10 ^ k`. Decimal digits take up the exponent before they
are rounded.
-/
def valueTimesTen (radix : Radix) (significand : Significand) (k : Int) : Binary64 :=
  match radix with
  | decimal => (significand.toDecimal k).toBinary64 false
  | _ => (radix.value significand).scaleByTen k

end Radix

end Numeral
