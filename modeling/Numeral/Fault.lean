/-! Why a literal that was begun is malformed. -/

namespace Numeral

inductive Fault
  /-- A marker and a sign are followed by no digit. -/
  | exponentExpected
  /-- A separator stands in the fraction of a decimal literal. -/
  | decimalNumberExpected
  /-- A separator stands in the fraction of a hexadecimal literal. -/
  | hexadecimalNumberExpected
deriving DecidableEq

namespace Fault

def all : List Fault :=
  [exponentExpected, decimalNumberExpected, hexadecimalNumberExpected]

/-- The stable identifier of a fault. -/
def code : Fault → String
  | exponentExpected => "exponent-expected"
  | decimalNumberExpected => "decimal-number-expected"
  | hexadecimalNumberExpected => "hexadecimal-number-expected"

def ofCode? (code : String) : Option Fault :=
  all.find? (·.code == code)

@[simp] theorem ofCode?_code (fault : Fault)
    : ofCode? fault.code = some fault := by
  cases fault <;> decide

end Fault

end Numeral
