import Numeral.Json.Token

/-! JSON values, read from tokens and written as tokens. An object keeps the order of its
fields and every field of a repeated name.
-/

namespace Numeral

inductive Json
  | null
  | bool (value : Bool)
  | number (written : List Char)
  | string (pieces : List Json.Piece)
  | array (items : List Json)
  | object (fields : List (List Json.Piece × Json))

namespace Json

/-- An array or object under way: what it holds so far, last first. An object under way has a
name that waits for its value.
-/
inductive Frame
  | array (items : List Json)
  | object (fields : List (List Piece × Json)) (name : List Piece)

/-- What the tokens so far call for, inside the arrays and objects of `outer`. -/
inductive Expectation
  /-- A value. -/
  | valueDue (outer : List Frame)
  /-- The first value of an array, or the end of the array. -/
  | firstItemDue (outer : List Frame)
  /-- The first name of an object, or the end of the object. -/
  | firstNameDue (outer : List Frame)
  /-- Another name of an object. -/
  | nameDue (outer : List Frame) (fields : List (List Piece × Json))
  /-- The colon after a name. -/
  | colonDue (outer : List Frame) (fields : List (List Piece × Json)) (name : List Piece)
  /-- What may follow a value. -/
  | read (outer : List Frame) (value : Json)

namespace Expectation

/-- The token that a value begins with. -/
def beginValue (outer : List Frame) : Token → Option Expectation
  | .null => some (.read outer .null)
  | .bool value => some (.read outer (.bool value))
  | .number written => some (.read outer (.number written))
  | .string pieces => some (.read outer (.string pieces))
  | .openArray => some (.firstItemDue outer)
  | .openObject => some (.firstNameDue outer)
  | _ => none

/-- The token after a value: it parts the value from the next one or ends what holds both. -/
def afterValue (value : Json) : List Frame → Token → Option Expectation
  | .array items :: outer, .comma => some (.valueDue (.array (value :: items) :: outer))
  | .array items :: outer, .closeArray => some (.read outer (.array (value :: items).reverse))
  | .object fields name :: outer, .comma => some (.nameDue outer ((name, value) :: fields))
  | .object fields name :: outer, .closeObject =>
      some (.read outer (.object ((name, value) :: fields).reverse))
  | _, _ => none

/-- What is called for after one more token. -/
def step : Expectation → Token → Option Expectation
  | .valueDue outer, token => beginValue outer token
  | .firstItemDue outer, .closeArray => some (.read outer (.array []))
  | .firstItemDue outer, token => beginValue (.array [] :: outer) token
  | .firstNameDue outer, .closeObject => some (.read outer (.object []))
  | .firstNameDue outer, .string name => some (.colonDue outer [] name)
  | .nameDue outer fields, .string name => some (.colonDue outer fields name)
  | .colonDue outer fields name, .colon => some (.valueDue (.object fields name :: outer))
  | .read outer value, token => afterValue value outer token
  | _, _ => none

end Expectation

/-- The value that `tokens` write, if they write one and nothing after it. -/
def ofTokens? (tokens : List Token) : Option Json :=
  match tokens.foldlM Expectation.step (.valueDue []) with
  | some (.read [] value) => some value
  | _ => none

/-- The value that a text writes. -/
def ofText? (text : List Char) : Option Json :=
  (Token.ofText? text).bind ofTokens?

mutual

/-- The tokens of a value. -/
def tokens : Json → List Token
  | .null => [.null]
  | .bool value => [.bool value]
  | .number written => [.number written]
  | .string pieces => [.string pieces]
  | .array items => .openArray :: (itemTokens items ++ [.closeArray])
  | .object fields => .openObject :: (fieldTokens fields ++ [.closeObject])

def itemTokens : List Json → List Token
  | [] => []
  | [item] => tokens item
  | item :: items => tokens item ++ .comma :: itemTokens items

def fieldTokens : List (List Piece × Json) → List Token
  | [] => []
  | [(name, value)] => .string name :: .colon :: tokens value
  | (name, value) :: fields =>
      .string name :: .colon :: (tokens value ++ .comma :: fieldTokens fields)

end

/-- A value without any blanks. -/
def write (json : Json) : List Char :=
  json.tokens.flatMap Token.write

def ofString (text : String) : Json :=
  .string (Piece.ofText text.toList)

def ofNat (n : Nat) : Json :=
  .number (Nat.toDigits 10 n)

def ofInt (n : Int) : Json :=
  if n < 0 then .number ('-' :: Nat.toDigits 10 n.natAbs) else ofNat n.natAbs

/-- An object with these names and values. -/
def ofFields (fields : List (String × Json)) : Json :=
  .object (fields.map fun (name, value) => (Piece.ofText name.toList, value))

end Json

end Numeral
