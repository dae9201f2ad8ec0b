import Numeral.Text.Digit

/-! The text of JSON strings. An escape can name one half of a surrogate pair, which is no
character, so a string is first read into pieces. The pieces name a text if every half has
its partner beside it.
-/

namespace Numeral.Json

inductive Piece
  | char (c : Char)
  /-- A half of a surrogate pair, `0xD800` to `0xDFFF`. -/
  | half (code : Nat)
deriving DecidableEq

namespace Piece

def isFirstHalf (code : Nat) : Bool :=
  decide (0xD800 ≤ code ∧ code < 0xDC00)

def isSecondHalf (code : Nat) : Bool :=
  decide (0xDC00 ≤ code ∧ code < 0xE000)

/-- The piece that an escape with four hexadecimal digits names. -/
def ofCode (code : Nat) : Piece :=
  if isFirstHalf code || isSecondHalf code then .half code else .char (Char.ofNat code)

/-- The text that the pieces name, if they name one. -/
def text? : List Piece → Option (List Char)
  | [] => some []
  | .char c :: rest => (text? rest).map (c :: ·)
  | .half first :: .half second :: rest =>
      if isFirstHalf first && isSecondHalf second then
        (text? rest).map
          (Char.ofNat (0x10000 + (first - 0xD800) * 0x400 + (second - 0xDC00)) :: ·)
      else none
  | .half _ :: _ => none

def ofText (text : List Char) : List Piece :=
  text.map .char

@[simp] theorem text?_ofText (text : List Char)
    : text? (ofText text) = some text := by
  induction text with
  | nil => rfl
  | cons c rest ih =>
      simp only [ofText, List.map_cons, text?] at *
      rw [ih]
      rfl

/-- The characters with an escape of their own, and the letter of that escape. -/
def shortEscapes : List (Char × Char) :=
  [('"', '"'), ('\\', '\\'), ('/', '/'), ('\x08', 'b'), ('\x0C', 'f'), ('\n', 'n'),
    ('\r', 'r'), ('\t', 't')]

/-- The character that the escape with this letter names. -/
def ofEscape? (letter : Char) : Option Char :=
  (shortEscapes.find? (·.2 == letter)).map Prod.fst

/-- The number that four hexadecimal digits write. -/
def code? (digits : List Char) : Option Nat :=
  if digits.all (Digit.isDigit 16) then some (Digit.number 16 (Digit.values 16 digits))
  else none

/-- Reads a string whose opening quote has been read, up to its closing quote, and gives what
follows. A control character may only stand in it as an escape.
-/
def read? : List Char → Option (List Piece × List Char)
  | [] => none
  | '"' :: rest => some ([], rest)
  | '\\' :: 'u' :: a :: b :: c :: d :: rest =>
      (code? [a, b, c, d]).bind fun code =>
        (read? rest).map fun (pieces, rest) => (ofCode code :: pieces, rest)
  | '\\' :: letter :: rest =>
      (ofEscape? letter).bind fun c =>
        (read? rest).map fun (pieces, rest) => (.char c :: pieces, rest)
  | c :: rest =>
      if c < ' ' then none
      else (read? rest).map fun (pieces, rest) => (.char c :: pieces, rest)

/-- An escape with four hexadecimal digits. -/
def writeCode (code : Nat) : List Char :=
  '\\' :: 'u' ::
    [code / 0x1000, code / 0x100 % 0x10, code / 0x10 % 0x10, code % 0x10].map Nat.digitChar

/-- A piece as it stands between quotes. A slash needs no escape and gets none. -/
def write : Piece → List Char
  | .half code => writeCode code
  | .char c =>
      match shortEscapes.find? (·.1 == c) with
      | some (c, letter) => if c = '/' then [c] else ['\\', letter]
      | none => if c < ' ' then writeCode c.toNat else [c]

theorem length_of_read? {text rest : List Char} {pieces : List Piece}
    (found : read? text = some (pieces, rest))
    : rest.length < text.length := by
  fun_induction read? text generalizing pieces rest with
  | case1 => simp at found
  | case2 =>
      simp only [Option.some.injEq, Prod.mk.injEq] at found
      simp [← found.2]
  | case3 a b c d tail ih =>
      obtain ⟨code, _, found⟩ := Option.bind_eq_some_iff.mp found
      obtain ⟨⟨inner, last⟩, inside, same⟩ := Option.map_eq_some_iff.mp found
      simp only [Prod.mk.injEq] at same
      have := ih inside
      simp only [← same.2, List.length_cons]
      omega
  | case4 letter tail _ ih =>
      obtain ⟨c, _, found⟩ := Option.bind_eq_some_iff.mp found
      obtain ⟨⟨inner, last⟩, inside, same⟩ := Option.map_eq_some_iff.mp found
      simp only [Prod.mk.injEq] at same
      have := ih inside
      simp only [← same.2, List.length_cons]
      omega
  | case5 => simp at found
  | case6 c tail _ _ _ _ ih =>
      obtain ⟨⟨inner, last⟩, inside, same⟩ := Option.map_eq_some_iff.mp found
      simp only [Prod.mk.injEq] at same
      have := ih inside
      simp only [← same.2, List.length_cons]
      omega

end Piece

end Numeral.Json
