import Numeral.Decimal.Notation
import Numeral.Reading
import Numeral.Text.Utf8

/-! A check of the reader against what it promises, at any place of any bytes. A byte string
of a header and a text asks for one literal and one signed literal at one place.
-/

namespace Numeral.Fuzz

/-- A promise that a reading broke. -/
inductive Violation
  /-- It stopped although it was not to stop. -/
  | halted
  /-- Its outcome begins somewhere else. -/
  | start
  /-- Its span is empty or passes the end of the text. -/
  | span
  /-- The cursor is not where the outcome ends. -/
  | cursor
  /-- The value is not the one that the span writes. -/
  | value
deriving DecidableEq

/-- What a byte string asks for. -/
structure Request where
  options : Options
  cursor : Cursor

/-- Splits a byte string into a byte of flags, a place in four bytes, the least significant
one first, and a text. A flag turns off what the options allow. The place counts from the
beginning again behind the end of the text.
-/
def Request.ofBytes? : List UInt8 → Option Request
  | flags :: a :: b :: c :: d :: bytes =>
      let text := Utf8.decode bytes
      let place := a.toNat + 0x100 * (b.toNat + 0x100 * (c.toNat + 0x100 * d.toNat))
      some
        { options :=
            { binaryLiterals := flags.toNat % 2 == 0
              hexadecimalLiterals := flags.toNat / 2 % 2 == 0
              digitSeparators := flags.toNat / 4 % 2 == 0 }
          cursor := .ofText text (place % (text.length + 1)) }
  | _ => none

def require (condition : Bool) (violation : Violation) : Except Violation Unit :=
  if condition then .ok () else .error violation

/-- The span begins at `cursor`, is not empty and ends where the cursor is afterwards. -/
def checkSpan (cursor after : Cursor) (start stop : Nat) : Except Violation Unit := do
  require (start == cursor.offset) .start
  require (decide (start < stop ∧ stop ≤ cursor.length)) .span
  require (after.offset == stop) .cursor

/-- The characters of a span without separators. -/
def writtenIn (cursor : Cursor) (start stop : Nat) : List Char :=
  ((cursor.text.drop start).take (stop - start)).filter (· != '_')

/-- A decimal literal without a binary exponent is the number nearest to what is written. -/
def checkValue (written : List Char) (radix : Radix) (value : Binary64)
    : Except Violation Unit :=
  if radix = .decimal ∧ ¬ written.any (Marker.hasLetter .binary) then
    require ((Decimal.read? written).map (·.toBinary64 false) == some value) .value
  else .ok ()

def checkLiteral (cursor : Cursor) (reading : Reading (Radix × Binary64))
    : Except Violation Unit :=
  match reading.outcome with
  | .error _ => .error .halted
  | .ok (.absent start) => do
      require (start == cursor.offset) .start
      require (reading.cursor.offset == cursor.offset) .cursor
  | .ok (.complete start stop (radix, value)) => do
      checkSpan cursor reading.cursor start stop
      checkValue (writtenIn cursor start stop) radix value
  | .ok (.malformed start stop _ _) => checkSpan cursor reading.cursor start stop

def checkSignedNumber (cursor : Cursor) (reading : Reading Binary64)
    : Except Violation Unit :=
  match reading.outcome with
  | .error _ => .error .halted
  | .ok outcome => do
      require (reading.cursor.offset == outcome.stop?.getD cursor.offset) .cursor
      require (outcome.start == cursor.offset) .start

/-- Checks both readings that `bytes` ask for and gives the events of both. Bytes too few for
a header ask for none.
-/
def check (bytes : List UInt8) : Except Violation (List Event) :=
  match Request.ofBytes? bytes with
  | none => .ok []
  | some request => do
      let literal := request.cursor.readLiteral request.options
      checkLiteral request.cursor literal
      let signed := request.cursor.readSignedNumber request.options
      checkSignedNumber request.cursor signed
      return literal.events ++ signed.events

end Numeral.Fuzz
