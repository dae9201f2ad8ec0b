import Numeral.Decimal.Basic

/-! The shortest decimal that reads back as a given binary64 magnitude. For one digit, then
two, and so on, the exact value's two neighbours on that decimal grid are tried; the first
grid with a neighbour that reads back wins. Seventeen digits always suffice.
-/

namespace Numeral.Decimal

/-- How many decimal digits `n` has; zero has one. -/
def digitCount (n : Nat) : Nat :=
  if n < 10 then 1 else digitCount (n / 10) + 1

/-- The exact value of a finite magnitude: a unit is `5 ^ 1074 * 10 ^ -1074`. -/
def ofMagnitude (magnitude : Nat) : Decimal where
  coefficient := Binary64.unitsOf magnitude * Nat.pow 5 1074
  exponent := -1074

/-- Leaves out the digits after the first `count`, which gives the neighbour below. -/
def truncate (x : Decimal) (count : Nat) : Decimal :=
  let dropped := digitCount x.coefficient - count
  { coefficient := x.coefficient / Nat.pow 10 dropped
    exponent := x.exponent + dropped }

/-- One more in the last digit, which turns the neighbour below into the neighbour above. -/
def successor (x : Decimal) : Decimal :=
  { x with coefficient := x.coefficient + 1 }

/-- The one of two neighbours that reads back as `magnitude`, the nearer one of two that do. -/
def readingBack? (magnitude : Nat) (below above : Decimal) (belowIsNearer : Bool)
    : Option Decimal :=
  match below.nearestMagnitude == magnitude, above.nearestMagnitude == magnitude with
  | true, true => if belowIsNearer then some below else some above
  | true, false => some below
  | false, true => some above
  | false, false => none

/-- The neighbour of `magnitude` with `count` digits that reads back as it. Of two that do it
is the nearer one, and of two equally near ones the one above.
-/
def neighbour? (magnitude count : Nat) : Option Decimal :=
  let exact := ofMagnitude magnitude
  let below := exact.truncate count
  let step := Nat.pow 10 (digitCount exact.coefficient - count)
  readingBack? magnitude below below.successor (2 * (exact.coefficient % step) < step)

/-- Leaves out zeros at the end of the coefficient. -/
def trim (x : Decimal) : Decimal :=
  if x.coefficient = 0 then ⟨0, 0⟩
  else if x.coefficient % 10 = 0 then trim ⟨x.coefficient / 10, x.exponent + 1⟩
  else x
termination_by x.coefficient
decreasing_by omega

/-- The decimal with the fewest digits that reads back as `magnitude`, and of those the
nearest to it.
-/
def shortest (magnitude : Nat) : Decimal :=
  (((List.range 17).findSome? fun n => neighbour? magnitude (n + 1)).getD
    (ofMagnitude magnitude)).trim

end Numeral.Decimal
