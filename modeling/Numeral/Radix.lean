import Numeral.Fault
import Numeral.Text.Digit

/-! The three ways to write a number, and where they differ. -/

namespace Numeral

inductive Radix
  | binary
  | hexadecimal
  | decimal
deriving DecidableEq

namespace Radix

def base : Radix → Nat
  | binary => 2
  | hexadecimal => 16
  | decimal => 10

def name : Radix → String
  | binary => "Binary"
  | hexadecimal => "Hexadecimal"
  | decimal => "Decimal"

def all : List Radix :=
  [binary, hexadecimal, decimal]

def ofName? (name : String) : Option Radix :=
  all.find? (·.name == name)

/-- The characters before the first digit. Only the small letters are read. -/
def lead : Radix → List Char
  | binary => ['0', 'b']
  | hexadecimal => ['0', 'x']
  | decimal => []

/-- The fault of a separator in the fraction. A binary fraction has separators as the whole
part has them.
-/
def fractionFault? : Radix → Option Fault
  | binary => none
  | hexadecimal => some .hexadecimalNumberExpected
  | decimal => some .decimalNumberExpected

@[simp] theorem ofName?_name (radix : Radix)
    : ofName? radix.name = some radix := by
  cases radix <;> decide

end Radix

end Numeral
