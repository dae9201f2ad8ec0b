import Numeral.Json.Basic

/-! What a JSON value is read as: a truth value, a whole number in a range, one of several
names, or a record with named fields.
-/

namespace Numeral.Json

def asBool? : Json → Option Bool
  | .bool value => some value
  | _ => none

/-- The whole number of a number without fraction and exponent. A zero with a minus sign is
none.
-/
def asInt? : Json → Option Int
  | .number ('-' :: digits) =>
      let number := Digit.number 10 (Digit.values 10 digits)
      if digits.all (Digit.isDigit 10) ∧ number ≠ 0 then some (-number) else none
  | .number digits =>
      if digits.all (Digit.isDigit 10) then some (Digit.number 10 (Digit.values 10 digits))
      else none
  | _ => none

/-- A whole number that 64 bits hold without a sign. -/
def asWord64? (json : Json) : Option Nat :=
  (json.asInt?.filter fun n => decide (0 ≤ n ∧ n < 0x10000000000000000)).map Int.toNat

/-- A whole number that 32 bits hold with a sign. -/
def asInt32? (json : Json) : Option Int :=
  json.asInt?.filter fun n => decide (-0x80000000 ≤ n ∧ n < 0x80000000)

/-- The text of a string. -/
def asText? : Json → Option (List Char)
  | .string pieces => Piece.text? pieces
  | _ => none

/-- One of several names: a string, or an object whose only field has that name and is null. -/
def asName? : Json → Option String
  | .object [(name, .null)] => (Piece.text? name).map String.ofList
  | json => json.asText?.map String.ofList

/-- A value under one of several names: an object whose only field has that name. -/
def asTagged? : Json → Option (String × Json)
  | .object [(name, value)] => (Piece.text? name).map fun name => (String.ofList name, value)
  | _ => none

/-- A field by the text of its name. -/
def textNamed? (field : List Piece × Json) : Option (List Char × Json) :=
  (Piece.text? field.1).map (·, field.2)

/-- The values of the fields with the name `name`. -/
def fieldsNamed (name : String) (fields : List (List Char × Json)) : List Json :=
  (fields.filter (·.1 == name.toList)).map Prod.snd

/-- The field `name`, which may be missing but not be there twice. -/
def fieldNamed? (fields : List (List Char × Json)) (name : String) : Option (Option Json) :=
  match fieldsNamed name fields with
  | [] => some none
  | [value] => some (some value)
  | _ => none

/-- The fields `names` of a record, in this order, with `none` for one that is missing. An
object may have other fields too, in any order. An array gives the values without their names,
in order, and can only leave out the last.
-/
def asRecord? (names : List String) : Json → Option (List (Option Json))
  | .object fields => (fields.mapM textNamed?).bind fun fields => names.mapM (fieldNamed? fields)
  | .array items =>
      if items.length ≤ names.length then
        some (items.map some ++ List.replicate (names.length - items.length) none)
      else none
  | _ => none

end Numeral.Json
