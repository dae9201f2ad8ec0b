import Numeral.Decimal.Shortest
import Numeral.Text.Sign

/-! Decimal text: reading it exactly, and writing numbers without an exponent. -/

namespace Numeral.Decimal

/-- Reads an exponent, a letter `e` in either case, a sign that may be left out, and digits,
from the whole of `text`. No exponent at all is zero.
-/
def readExponent? (text : List Char) : Option Int :=
  match text with
  | [] => some 0
  | letter :: rest =>
      let sign := Sign.leading? rest
      let digits := rest.drop (Sign.length sign)
      if (letter = 'e' ∨ letter = 'E') ∧ digits ≠ [] ∧ digits.all (Digit.isDigit 10) then
        some (Sign.applyInt sign (Digit.number 10 (Digit.values 10 digits)))
      else none

/-- Reads digits, then a point with or without digits after it that may be left out, then an
exponent that may be left out, from the whole of `text`.
-/
def read? (text : List Char) : Option Decimal :=
  let whole := text.takeWhile (Digit.isDigit 10)
  let rest := text.dropWhile (Digit.isDigit 10)
  let point := rest.head? == some '.'
  let afterPoint := if point then rest.drop 1 else rest
  let fraction := if point then afterPoint.takeWhile (Digit.isDigit 10) else []
  if whole = [] then none
  else
    (readExponent? (afterPoint.drop fraction.length)).map
      (ofDigits (Digit.values 10 whole) (Digit.values 10 fraction))

/-- The number in decimal digits without an exponent: with zeros up to the point, or with a
point and at least one digit before it.
-/
def write (x : Decimal) : List Char :=
  let digits := Nat.toDigits 10 x.coefficient
  let places := (-x.exponent).toNat
  if places = 0 then digits ++ List.replicate x.exponent.toNat '0'
  else
    let padded := List.replicate (places + 1 - digits.length) '0' ++ digits
    padded.take (padded.length - places) ++ '.' :: padded.drop (padded.length - places)

end Numeral.Decimal

namespace Numeral.Binary64

/-- The shortest decimal text of a number, without an exponent. -/
def display (x : Binary64) : List Char :=
  let magnitude :=
    if x.isFinite then (Decimal.shortest x.magnitude).write else ['i', 'n', 'f']
  if x.isNaN then ['N', 'a', 'N']
  else if x.negative then '-' :: magnitude
  else magnitude

end Numeral.Binary64
