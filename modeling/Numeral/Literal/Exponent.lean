import Numeral.Binary64.Arithmetic
import Numeral.Decimal.Shortest
import Numeral.Lexeme
import Numeral.Text.Sign

/-! Exponents: a marker, a sign that may be left out, and decimal digits. The letter `e`
scales by a power of ten and `p` by a power of two.
-/

namespace Numeral

/-- What an exponent scales by. -/
inductive Marker
  | decimal
  | binary
deriving DecidableEq

namespace Marker

/-- Whether `c` is the letter of the marker, in either case. -/
def hasLetter (marker : Marker) (c : Char) : Bool :=
  match marker with
  | decimal => c == 'e' || c == 'E'
  | binary => c == 'p' || c == 'P'

/-- No exponent is larger. One that is written larger is read as this one. -/
def limit : Nat := 2147483647

/-- The number that `digits` write, or the limit if it is larger. -/
def saturate (digits : List Nat) : Nat :=
  digits.foldl (fun number digit => min limit (10 * number + digit)) 0

/-- What follows a marker: a sign that may be left out, and digits. Without digits a sign is
a fault, since nothing else can be meant, and without a sign there is no exponent.
-/
def signedDigits? (text : List Char) : Option (Lexeme Int) :=
  let sign := Sign.leading? text
  let run := (text.drop (Sign.length sign)).takeWhile (Digit.isDigit 10)
  if run = [] then
    sign.map fun _ => ⟨1, 0, some .exponentExpected⟩
  else some ⟨Sign.length sign + run.length,
      Sign.applyInt sign (saturate (Digit.values 10 run)), none⟩

/-- The exponent with this marker that `text` begins with. -/
def exponent? (marker : Marker) (text : List Char) : Option (Lexeme Int) :=
  match text with
  | [] => none
  | c :: rest =>
      if marker.hasLetter c then (signedDigits? rest).map (·.extend 1) else none

/-- The exponent with either marker that `text` begins with. -/
def suffix? (text : List Char) : Option (Lexeme (Marker × Int)) :=
  ((decimal.exponent? text).map (·.map (decimal, ·))).or
    ((binary.exponent? text).map (·.map (binary, ·)))

end Marker

namespace Binary64

/-- The number times `10 ^ k`: its shortest decimal, scaled and read back. A number that is
not finite stays as it is.
-/
def scaleByTen (x : Binary64) (k : Int) : Binary64 :=
  if x.isFinite then ((Decimal.shortest x.magnitude).scaleByTen k).toBinary64 x.negative
  else x

/-- Scales `x` by the exponent that `text` begins with, if it does. Powers of ten are left to
`scaleByTen`, which knows how the number was written. A malformed exponent leaves `x`.
-/
def scaleBy (x : Binary64) (scaleByTen : Int → Binary64) (text : List Char) : Lexeme Binary64 :=
  match Marker.suffix? text with
  | none => ⟨0, x, none⟩
  | some exponent =>
      exponent.map fun (marker, k) =>
        if exponent.fault.isSome then x
        else
          match marker with
          | .decimal => scaleByTen k
          | .binary => x.scaleByTwo k

/-- Scales `x` by the exponent that `text` begins with, if it does. -/
def applyExponent (x : Binary64) (text : List Char) : Lexeme Binary64 :=
  x.scaleBy x.scaleByTen text

end Binary64

end Numeral
