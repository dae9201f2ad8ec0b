/-! Binary floating point numbers of 64 bits. A number is a sign and a magnitude: the 63 bits
below the sign, read as one natural number. Finite magnitudes are ordered as their absolute
values are, and every finite absolute value is a whole number of units of `2 ^ -1074`.
-/

namespace Numeral

structure Binary64 where
  negative : Bool
  magnitude : Nat
  magnitude_lt : magnitude < Nat.pow 2 63
deriving DecidableEq

namespace Binary64

/-- The bits of a magnitude below its exponent. -/
def fractionBits : Nat := 52

/-- The magnitude of infinity, least of those that are not finite. -/
def infiniteMagnitude : Nat := 2047 * Nat.pow 2 fractionBits

/-- How many units make one: a unit is the least positive number, `2 ^ -1074`. -/
def unitsPerOne : Nat := Nat.pow 2 1074

/-- The absolute value of a finite magnitude, counted in units. -/
def unitsOf (magnitude : Nat) : Nat :=
  let exponent := magnitude / Nat.pow 2 fractionBits
  let fraction := magnitude % Nat.pow 2 fractionBits
  if exponent = 0 then fraction
  else (Nat.pow 2 fractionBits + fraction) * Nat.pow 2 (exponent - 1)

theorem infiniteMagnitude_lt : infiniteMagnitude < Nat.pow 2 63 := by decide

theorem unitsPerOne_pos : 0 < unitsPerOne := by
  decide +kernel

def zero : Binary64 := ⟨false, 0, by decide⟩

def infinity (negative : Bool) : Binary64 :=
  ⟨negative, infiniteMagnitude, infiniteMagnitude_lt⟩

/-- What stands for the result of an operation that has none. -/
def nan : Binary64 := ⟨false, infiniteMagnitude + Nat.pow 2 51, by decide⟩

def isZero (x : Binary64) : Bool := x.magnitude == 0

def isFinite (x : Binary64) : Bool := decide (x.magnitude < infiniteMagnitude)

def isInfinite (x : Binary64) : Bool := x.magnitude == infiniteMagnitude

def isNaN (x : Binary64) : Bool := decide (infiniteMagnitude < x.magnitude)

def units (x : Binary64) : Nat := unitsOf x.magnitude

/-- The value of a finite number, counted in units. -/
def signedUnits (x : Binary64) : Int :=
  if x.negative then -(x.units : Int) else x.units

/-- The number with the other sign. The sign of a zero or of a NaN changes as well. -/
def neg (x : Binary64) : Binary64 :=
  { x with negative := !x.negative }

/-- Equality of values: the two zeros are equal, and a NaN equals nothing. -/
def equals (x y : Binary64) : Bool :=
  !x.isNaN && !y.isNaN && (x == y || (x.isZero && y.isZero))

def ofBits (bits : UInt64) : Binary64 where
  negative := decide (Nat.pow 2 63 ≤ bits.toNat)
  magnitude := bits.toNat % Nat.pow 2 63
  magnitude_lt := Nat.mod_lt _ (by decide)

def toBits (x : Binary64) : UInt64 :=
  UInt64.ofNat ((if x.negative then Nat.pow 2 63 else 0) + x.magnitude)

@[simp] theorem neg_neg (x : Binary64)
    : x.neg.neg = x := by
  cases x
  simp [neg]

end Binary64

end Numeral
