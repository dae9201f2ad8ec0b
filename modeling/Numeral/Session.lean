import Numeral.Reading

/-! A session moves one cursor about a text by commands. -/

namespace Numeral

inductive Command
  | seek (offset : Nat)
  | ofRadix (radix : Radix) (options : Options)
  | literal (options : Options)
  | number (options : Options)
  | signedNumber (options : Options)
  | exponent (marker : Marker)
  | applyExponent (mantissa : Binary64)

/-- What a command answers, apart from where the cursor is then. -/
inductive Reply
  | moved
  | number (outcome : Except Defect (Outcome Binary64))
  | literal (outcome : Except Defect (Outcome (Radix × Binary64)))
  | exponent (outcome : Except Defect (Outcome Int))

namespace Command

/-- Answers a command by a reading. -/
def reply {α : Type} (answer : Except Defect (Outcome α) → Reply) (reading : Reading α)
    : Reply × Cursor :=
  (answer reading.outcome, reading.cursor)

def run (command : Command) (cursor : Cursor) : Reply × Cursor :=
  match command with
  | .seek offset => (.moved, cursor.seek offset)
  | .ofRadix radix options => reply .number (cursor.readRadix options radix)
  | .literal options => reply .literal (cursor.readLiteral options)
  | .number options => reply .number (cursor.readNumber options)
  | .signedNumber options => reply .number (cursor.readSignedNumber options)
  | .exponent marker => reply .exponent (cursor.readExponent marker)
  | .applyExponent mantissa => reply .number (cursor.applyExponent mantissa)

end Command

namespace Session

/-- Runs the commands one after the other and gives each reply with the cursor after it. -/
def run : List Command → Cursor → List (Reply × Cursor)
  | [], _ => []
  | command :: commands, cursor =>
      let answer := command.run cursor
      answer :: run commands answer.2

end Session

end Numeral
