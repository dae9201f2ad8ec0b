/-! A sign at the beginning of a text. -/

namespace Numeral

inductive Sign
  | plus
  | minus
deriving DecidableEq

namespace Sign

def ofChar? : Char → Option Sign
  | '+' => some plus
  | '-' => some minus
  | _ => none

/-- The sign that `text` begins with. -/
def leading? (text : List Char) : Option Sign :=
  text.head?.bind ofChar?

/-- How many characters a sign takes that may be left out. -/
def length : Option Sign → Nat
  | none => 0
  | some _ => 1

/-- A minus sign negates by `negate`; a plus sign and no sign leave the value. -/
def apply {α : Type} (negate : α → α) (sign : Option Sign) (value : α) : α :=
  match sign with
  | some minus => negate value
  | _ => value

def applyInt (sign : Option Sign) (value : Nat) : Int :=
  apply (fun n => -n) sign (value : Int)

/-- A digit is no sign. -/
theorem leading?_cons_of_isDigit {c : Char} (digit : c.isDigit = true) (rest : List Char)
    : leading? (c :: rest) = none := by
  simp only [leading?, List.head?_cons, Option.bind_some]
  unfold ofChar?
  split <;> first | contradiction | rfl

end Sign

end Numeral
