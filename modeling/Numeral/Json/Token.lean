import Numeral.Json.Piece

/-! The tokens of JSON text. Blanks between them are left out. A number is kept as it is
written.
-/

namespace Numeral.Json

inductive Token
  | openObject
  | closeObject
  | openArray
  | closeArray
  | colon
  | comma
  | null
  | bool (value : Bool)
  | number (written : List Char)
  | string (pieces : List Piece)
deriving DecidableEq

namespace Token

def isBlank (c : Char) : Bool :=
  c == ' ' || c == '\n' || c == '\r' || c == '\t'

def isNumberCharacter (c : Char) : Bool :=
  Digit.isDigit 10 c || c == '-' || c == '+' || c == '.' || c == 'e' || c == 'E'

/-- Whether `text` is an exponent: nothing, or a letter, a sign that may be left out, and
digits.
-/
def isExponent : List Char → Bool
  | [] => true
  | letter :: rest =>
      let digits :=
        match rest with
        | '+' :: digits | '-' :: digits | digits => digits
      (letter == 'e' || letter == 'E') && !digits.isEmpty && digits.all (Digit.isDigit 10)

/-- Whether `text` is a fraction and an exponent, each of which may be left out. -/
def isNumberEnd : List Char → Bool
  | '.' :: rest =>
      let digits := rest.takeWhile (Digit.isDigit 10)
      !digits.isEmpty && isExponent (rest.drop digits.length)
  | text => isExponent text

/-- Whether `text` is a number. A whole part of two digits or more does not begin with zero. -/
def isNumber (text : List Char) : Bool :=
  let unsigned :=
    match text with
    | '-' :: rest | rest => rest
  let digits := unsigned.takeWhile (Digit.isDigit 10)
  !digits.isEmpty && (digits.length == 1 || digits.head? != some '0')
    && isNumberEnd (unsigned.drop digits.length)

/-- Reads the token that `text` begins with, and gives what follows it. -/
def next? (text : List Char) : Option (Token × List Char) :=
  match text with
  | '{' :: rest => some (openObject, rest)
  | '}' :: rest => some (closeObject, rest)
  | '[' :: rest => some (openArray, rest)
  | ']' :: rest => some (closeArray, rest)
  | ':' :: rest => some (colon, rest)
  | ',' :: rest => some (comma, rest)
  | 'n' :: 'u' :: 'l' :: 'l' :: rest => some (null, rest)
  | 't' :: 'r' :: 'u' :: 'e' :: rest => some (bool true, rest)
  | 'f' :: 'a' :: 'l' :: 's' :: 'e' :: rest => some (bool false, rest)
  | '"' :: rest => (Piece.read? rest).map fun (pieces, rest) => (string pieces, rest)
  | text =>
      let written := text.takeWhile isNumberCharacter
      if isNumber written then some (number written, text.drop written.length) else none

theorem not_isNumber_nil : isNumber [] = false := by decide

theorem length_of_next? {text rest : List Char} {token : Token}
    (found : next? text = some (token, rest))
    : rest.length < text.length := by
  revert found
  fun_cases next? text with
  | case10 tail =>
      intro found
      obtain ⟨⟨pieces, last⟩, inside, same⟩ := Option.map_eq_some_iff.mp found
      have := Piece.length_of_read? inside
      simp only [Prod.mk.injEq] at same
      simp only [← same.2, List.length_cons]
      omega
  | case11 =>
      rename_i written isNumber
      intro found
      simp only [Option.some.injEq, Prod.mk.injEq] at found
      have positive : 0 < written.length := by
        refine List.length_pos_iff.mpr fun empty => ?_
        rw [empty, not_isNumber_nil] at isNumber
        contradiction
      have : written.length ≤ text.length :=
        (List.takeWhile_sublist isNumberCharacter).length_le
      rw [← found.2, List.length_drop]
      omega
  | case12 => simp
  | _ =>
      intro found
      simp only [Option.some.injEq, Prod.mk.injEq] at found
      simp only [← found.2, List.length_cons]
      omega

/-- The tokens of a text, if it holds nothing else but blanks. -/
def ofText? (text : List Char) : Option (List Token) :=
  match text with
  | [] => some []
  | c :: rest =>
      if isBlank c then ofText? rest
      else
        match _ : next? (c :: rest) with
        | none => none
        | some (token, rest) => (ofText? rest).map (token :: ·)
termination_by text.length
decreasing_by
  · simp
  · exact length_of_next? (by assumption)

def write : Token → List Char
  | openObject => ['{']
  | closeObject => ['}']
  | openArray => ['[']
  | closeArray => [']']
  | colon => [':']
  | comma => [',']
  | null => ['n', 'u', 'l', 'l']
  | bool true => ['t', 'r', 'u', 'e']
  | bool false => ['f', 'a', 'l', 's', 'e']
  | number written => written
  | string pieces => '"' :: (pieces.flatMap Piece.write ++ ['"'])

end Token

end Numeral.Json
