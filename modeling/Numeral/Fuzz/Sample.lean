import Numeral.Fuzz.Draw
import Numeral.Text.Utf8

/-! Byte strings to check the reader on: a header, then pieces of text that stand beside
numbers in formulas, in turn with texts of the shape of a literal.
-/

namespace Numeral.Fuzz

/-- A way to write digits: what comes before them, and the characters to choose from. -/
structure Alphabet where
  lead : List Char
  first : Char
  others : List Char

def Alphabet.binary : Alphabet := ⟨['0', 'b'], '0', ['1', '_']⟩

def Alphabet.hexadecimal : Alphabet :=
  ⟨['0', 'x'], '0', "123456789abcdefABCDEF_".toList⟩

def Alphabet.decimal : Alphabet := ⟨[], '0', "123456789_".toList⟩

def Alphabet.draw (alphabet : Alphabet) : Draw Char :=
  Draw.oneOf alphabet.first alphabet.others

/-- A text of the shape of a literal: a sign, a lead, digits and separators, a fraction and an
exponent, any of which may be missing or malformed.
-/
def drawLiteral : Draw (List Char) := do
  let sign ← Draw.oneOf ['-'] [['+'], []]
  let alphabet ← Draw.oneOf Alphabet.binary [Alphabet.hexadecimal, Alphabet.decimal]
  let whole ← Draw.upTo 24 alphabet.draw
  let fraction ← Draw.sometimes do
    return '.' :: (← Draw.upTo 12 alphabet.draw)
  let exponent ← Draw.sometimes do
    let marker ← Draw.oneOf 'e' ['E', 'p', 'P']
    let sign ← Draw.sometimes do
      return [← Draw.oneOf '+' ['-']]
    let digits ← Draw.upTo 4 (Draw.oneOf '0' "123456789".toList)
    return marker :: (sign ++ digits)
  return sign ++ alphabet.lead ++ whole ++ fraction ++ exponent

/-- How many bytes of the tape one literal takes up, needed or not. -/
def literalBytes : Nat := 64

/-- What stands beside numbers in formulas, after a blank. -/
def neighbours : List (List Char) :=
  ["+", "-", "x", "e", "p", "\\cdot", "\x7b", "\x7d", "^", ".", "_", "π", "\uFFFD"].map
    String.toList

/-- A piece of text beside a number, if it takes no more than `limit` bytes. -/
def neighbour (limit : Nat) (tape : List UInt8) : List UInt8 :=
  let piece := Utf8.encode ((Draw.oneOf [' '] neighbours).run tape).1
  if piece.length ≤ limit then piece else []

/-- A literal, cut to `limit` bytes. -/
def literal (limit : Nat) (tape : List UInt8) : List UInt8 :=
  (Utf8.encode (drawLiteral.run (tape.take literalBytes)).1).take limit

/-- What one round appends. Both parts keep to the same limit, so together they may not. -/
def round (limit : Nat) (tape : List UInt8) : List UInt8 :=
  neighbour limit tape ++ literal limit (tape.drop 1)

/-- A buffer, and how many of its first bytes are in use. -/
structure Sample where
  buffer : List UInt8
  size : Nat
deriving DecidableEq

namespace Sample

/-- A buffer that begins with `bytes`, is zero after them, and holds `capacity` bytes if they
are fewer.
-/
def ofBytes (bytes : List UInt8) (capacity : Nat) : Sample where
  buffer := bytes ++ List.replicate (capacity - bytes.length) 0
  size := bytes.length

def bytes (sample : Sample) : List UInt8 :=
  sample.buffer.take sample.size

/-- Writes `piece` over the bytes behind those in use, if the buffer holds it. -/
def append? (sample : Sample) (piece : List UInt8) : Option Sample :=
  if sample.size + piece.length ≤ sample.buffer.length then
    some
      { buffer :=
          sample.buffer.take sample.size ++ piece
            ++ sample.buffer.drop (sample.size + piece.length)
        size := sample.size + piece.length }
  else none

theorem size_of_append? {sample next : Sample} {piece : List UInt8}
    (appended : sample.append? piece = some next)
    : next.size = sample.size + piece.length := by
  simp only [append?] at appended
  split at appended
  · simp only [Option.some.injEq] at appended
    rw [← appended]
  · contradiction

/-- On a tape that has run out every piece is one blank. -/
theorem length_round_nil_pos {limit : Nat} (positive : 0 < limit)
    : 0 < (round limit []).length := by
  have blank : (Utf8.encode ((Draw.oneOf [' '] neighbours).run []).1) = [32] := by decide
  have first : neighbour limit [] = [32] := by
    simp only [neighbour, blank]
    exact if_pos positive
  simp only [round, first, List.length_append, List.length_singleton]
  omega

/-- Appends rounds until `wanted` bytes are in use or none of `capacity` is left. Fails if a
piece passes the end of the buffer.
-/
def fill? (wanted capacity : Nat) (sample : Sample) (tape : List UInt8) : Option Sample :=
  if sample.size < wanted ∧ sample.size < capacity then
    match appended : sample.append? (round (capacity - sample.size) tape) with
    | none => none
    | some next => fill? wanted capacity next (tape.drop (1 + literalBytes))
  else some sample
termination_by tape.length + (capacity - sample.size)
decreasing_by
  have size := size_of_append? appended
  cases tape with
  | nil =>
      have := @length_round_nil_pos (capacity - sample.size) (by omega)
      simp only [List.drop_nil, List.length_nil]
      omega
  | cons head tail =>
      simp only [List.length_drop, List.length_cons, literalBytes]
      omega

/-- A header: flags, and a place below eight in four bytes. It takes two words of the tape. -/
def header (tape : List UInt8) : List UInt8 :=
  [tape.getD 0 0 % 8, tape.getD 4 0 % 8, 0, 0, 0]

/-- How many bytes a header takes, of a sample and of the tape. -/
def headerLength : Nat := 5

def headerBytes : Nat := 8

/-- The sample made anew, of its former size and at least one byte of text, as far as
`capacity` goes. Fails if the buffer is too short for a piece or for the header.
-/
def makeAnew? (capacity : Nat) (sample : Sample) (tape : List UInt8) : Option Sample := do
  let headed ← { sample with size := 0 }.append? (header tape)
  headed.fill? (max sample.size (headerLength + 1)) capacity (tape.drop headerBytes)

/-- A changed sample, and whether the engine that asked for it was left to change it. -/
structure Variation where
  sample : Sample
  delegated : Bool

/-- Makes the sample anew if it is too short for a header, and else for one seed in ten. For
the other seeds it is `engine` that changes it.
-/
def vary? (engine : Sample → Sample) (capacity seed : Nat) (sample : Sample)
    (tape : List UInt8)
    : Option Variation :=
  if sample.size < headerLength ∨ seed % 10 = 0 then
    (sample.makeAnew? capacity tape).map (Variation.mk · false)
  else some ⟨engine sample, true⟩

end Sample

end Numeral.Fuzz
