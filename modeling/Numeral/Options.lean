/-! What a reader of literals accepts. -/

namespace Numeral

structure Options where
  /-- Whether `0b` begins a binary literal. If not, the `0` is a literal of its own. -/
  binaryLiterals : Bool := true
  /-- Whether `0x` begins a hexadecimal literal. -/
  hexadecimalLiterals : Bool := true
  /-- Whether `_` may stand among the digits of a whole part and of a binary fraction. If not,
  it ends the run of digits. -/
  digitSeparators : Bool := true
  /-- Whether a malformed literal stops the reading instead of being its outcome. -/
  haltOnMalformed : Bool := false
deriving DecidableEq

end Numeral
