/-! Reading UTF-8 that may be broken. The longest beginning of a sequence that could still
have become a character is replaced as a whole, by one replacement character; a byte that
can begin nothing is replaced alone.
-/

namespace Numeral.Utf8

/-- What stands for bytes that are not text. -/
def replacement : Char := '\uFFFD'

/-- A sequence under way: the bits read so far, how many bytes are missing, and the range
of the next one. Only the second byte of a sequence has a range narrower than `0x80` to
`0xBF`, which keeps out long forms, surrogates and numbers above `0x10FFFF`.
-/
structure Pending where
  bits : Nat
  missing : Nat
  low : UInt8
  high : UInt8
deriving DecidableEq

/-- A byte outside any sequence: a character of its own, the beginning of a sequence, or
neither.
-/
def start (byte : UInt8) : List Char × Option Pending :=
  let bits := byte.toNat
  if byte < 0x80 then ([Char.ofNat bits], none)
  else if byte < 0xC2 then ([replacement], none)
  else if byte < 0xE0 then ([], some ⟨bits % 0x20, 1, 0x80, 0xBF⟩)
  else if byte = 0xE0 then ([], some ⟨bits % 0x10, 2, 0xA0, 0xBF⟩)
  else if byte = 0xED then ([], some ⟨bits % 0x10, 2, 0x80, 0x9F⟩)
  else if byte < 0xF0 then ([], some ⟨bits % 0x10, 2, 0x80, 0xBF⟩)
  else if byte = 0xF0 then ([], some ⟨bits % 0x08, 3, 0x90, 0xBF⟩)
  else if byte = 0xF4 then ([], some ⟨bits % 0x08, 3, 0x80, 0x8F⟩)
  else if byte < 0xF4 then ([], some ⟨bits % 0x08, 3, 0x80, 0xBF⟩)
  else ([replacement], none)

/-- One byte: the characters that it completes or breaks off, and the sequence under way
after it. A byte that cannot go on with a sequence is read again on its own.
-/
def step (pending : Option Pending) (byte : UInt8) : List Char × Option Pending :=
  match pending with
  | none => start byte
  | some sequence =>
      if sequence.low ≤ byte ∧ byte ≤ sequence.high then
        let bits := sequence.bits * 0x40 + byte.toNat % 0x40
        if sequence.missing = 1 then ([Char.ofNat bits], none)
        else ([], some ⟨bits, sequence.missing - 1, 0x80, 0xBF⟩)
      else
        let (chars, next) := start byte
        (replacement :: chars, next)

/-- Reads `bytes` after the sequence `pending`, which is replaced if nothing follows. -/
def decodeFrom (pending : Option Pending) : List UInt8 → List Char
  | [] => if pending.isSome then [replacement] else []
  | byte :: bytes =>
      let (chars, next) := step pending byte
      chars ++ decodeFrom next bytes

def decode (bytes : List UInt8) : List Char :=
  decodeFrom none bytes

/-- The UTF-8 form of a text. -/
def encode (text : List Char) : List UInt8 :=
  text.flatMap String.utf8EncodeChar

/-- How many characters are still to come of a sequence under way. -/
def owed (pending : Option Pending) : Nat :=
  if pending.isSome then 1 else 0

theorem length_start (byte : UInt8)
    : (start byte).1.length + owed (start byte).2 = 1 := by
  simp only [start]
  repeat' split
  all_goals rfl

/-- A byte adds no more than one character to those that were owed already. -/
theorem length_step_le (pending : Option Pending) (byte : UInt8)
    : (step pending byte).1.length + owed (step pending byte).2 ≤ 1 + owed pending := by
  have fresh := length_start byte
  cases pending with
  | none => exact Nat.le_of_eq fresh
  | some sequence =>
      simp only [step]
      split
      next => split <;> simp [owed]
      next =>
        simp only [List.length_cons]
        simp only [owed, Option.isSome_some, if_true] at fresh ⊢
        omega

theorem length_decodeFrom_le (pending : Option Pending) (bytes : List UInt8)
    : (decodeFrom pending bytes).length ≤ bytes.length + owed pending := by
  induction bytes generalizing pending with
  | nil => cases pending <;> simp [decodeFrom, owed]
  | cons byte rest ih =>
      have now := length_step_le pending byte
      have later := ih (step pending byte).2
      simp only [decodeFrom, List.length_append, List.length_cons]
      omega

/-- A text has no more characters than it has bytes, broken or not. -/
theorem length_decode_le (bytes : List UInt8)
    : (decode bytes).length ≤ bytes.length :=
  length_decodeFrom_le none bytes

end Numeral.Utf8
