import Numeral.Literal.Value
import Numeral.Options

/-! Literals at the beginning of a text, for one radix, for whichever radix fits, and with
a sign.
-/

namespace Numeral

/-- The literal of this radix that `text` begins with. -/
def Radix.literal? (radix : Radix) (options : Options) (text : List Char)
    : Option (Lexeme Binary64) :=
  (radix.significand? options.digitSeparators text).map fun significand =>
    if significand.fault.isSome then significand.map radix.value
    else
      ((radix.value significand.value).scaleBy (radix.valueTimesTen significand.value)
        (text.drop significand.length)).extend significand.length

namespace Options

def allows (options : Options) : Radix → Bool
  | .binary => options.binaryLiterals
  | .hexadecimal => options.hexadecimalLiterals
  | .decimal => true

/-- The literal that `text` begins with, and its radix. Leads are tried first: the `0` they
begin with is a decimal literal too.
-/
def literal? (options : Options) (text : List Char) : Option (Lexeme (Radix × Binary64)) :=
  Radix.all.findSome? fun radix =>
    if options.allows radix then (radix.literal? options text).map (·.map (radix, ·)) else none

/-- The value of the literal that `text` begins with. -/
def number? (options : Options) (text : List Char) : Option (Lexeme Binary64) :=
  (options.literal? text).map (·.map Prod.snd)

/-- The value of the literal that `text` begins with, after a sign that may be left out. -/
def signedNumber? (options : Options) (text : List Char) : Option (Lexeme Binary64) :=
  let sign := Sign.leading? text
  (options.number? (text.drop (Sign.length sign))).map fun number =>
    (number.map (Sign.apply Binary64.neg sign)).extend (Sign.length sign)

end Options

end Numeral
