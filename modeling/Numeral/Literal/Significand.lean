import Numeral.Lexeme
import Numeral.Radix

/-! The significand of a literal is what stands before its exponent: the lead, the digits of
the whole part and, after a point, the digits of the fraction.
-/

namespace Numeral

/-- The digits of a significand, most significant first and without separators. -/
structure Significand where
  whole : List Nat
  fraction : List Nat
deriving DecidableEq

/-- Whether `c` belongs to a run of digits of `radix`, which may hold separators or not. -/
def Radix.continues (radix : Radix) (separators : Bool) (c : Char) : Bool :=
  Digit.isDigit radix.base c || (separators && c == '_')

/-- The longest run of digits that `text` begins with. -/
def Radix.run (radix : Radix) (separators : Bool) (text : List Char) : List Char :=
  text.takeWhile (radix.continues separators)

/-- The digits of a whole part that takes up the run `run`. There has to be one at least, and
where there is no lead the digit comes first.
-/
def Radix.wholeDigits? (radix : Radix) (run : List Char) : Option (List Nat) :=
  let digits := Digit.values radix.base run
  if digits = [] ∨ (radix.lead = [] ∧ run.head? = some '_') then none
  else some digits

/-- What follows the whole part: nothing, or a point with the digits after it. The point
counts even without digits. A separator right after digits that may not have one is a fault,
and is taken too.
-/
def Radix.fraction (radix : Radix) (separators : Bool) (text : List Char) : Lexeme (List Nat) :=
  match text with
  | '.' :: rest =>
      let run := radix.run (separators && radix.fractionFault?.isNone) rest
      let digits := Digit.values radix.base run
      match radix.fractionFault? with
      | some fault =>
          if (rest.drop run.length).head? = some '_' then ⟨run.length + 2, digits, some fault⟩
          else ⟨run.length + 1, digits, none⟩
      | none => ⟨run.length + 1, digits, none⟩
  | _ => ⟨0, [], none⟩

/-- The significand that `text` begins with. -/
def Radix.significand? (radix : Radix) (separators : Bool) (text : List Char)
    : Option (Lexeme Significand) :=
  if radix.lead.isPrefixOf text then
    let body := text.drop radix.lead.length
    let run := radix.run separators body
    (radix.wholeDigits? run).map fun whole =>
      ((radix.fraction separators (body.drop run.length)).map (Significand.mk whole)).extend
        (radix.lead.length + run.length)
  else none

end Numeral
