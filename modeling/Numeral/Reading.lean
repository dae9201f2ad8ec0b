import Numeral.Event
import Numeral.Literal.Basic

/-! Reading at a cursor. The cursor ends behind what was found, and stays where it is if
nothing was. Reading a literal of whichever radix is watched: it tells what came of it by one
event, unless the options have a malformed literal stop it.
-/

namespace Numeral

/-- What reading at a cursor gives: an outcome, or the defect that stopped it, the events on
the way, and the cursor afterwards.
-/
structure Reading (α : Type) where
  outcome : Except Defect (Outcome α)
  events : List Event
  cursor : Cursor

namespace Reading

variable {α β : Type}

def map (f : α → β) (reading : Reading α) : Reading β where
  outcome := reading.outcome.map (·.map f)
  events := reading.events
  cursor := reading.cursor

end Reading

namespace Cursor

variable {α : Type}

/-- The cursor behind `lexeme?`, or where it is if there is none. -/
def behind (cursor : Cursor) (lexeme? : Option (Lexeme α)) : Cursor :=
  match lexeme? with
  | none => cursor
  | some lexeme => cursor.advance lexeme.length

/-- Reads what `find?` finds, unwatched. -/
def read (cursor : Cursor) (find? : List Char → Option (Lexeme α)) : Reading α :=
  let lexeme? := find? cursor.unread
  { outcome := .ok (.ofLexeme cursor.offset lexeme?)
    events := []
    cursor := cursor.behind lexeme? }

/-- Reads `lexeme?`, watched: `inner` is what came of the search for a literal within it. -/
def watch (cursor : Cursor) (options : Options) (inner : Outcome (Radix × Binary64))
    (lexeme? : Option (Lexeme α))
    : Reading α :=
  match options.haltOnMalformed, (inner.map Prod.snd).toExcept with
  | true, .error defect =>
      { outcome := .error defect
        events := []
        cursor := cursor.behind lexeme? }
  | _, _ =>
      { outcome := .ok (.ofLexeme cursor.offset lexeme?)
        events := [.ofOutcome inner]
        cursor := cursor.behind lexeme? }

/-- Reads a literal of `radix`, unwatched. -/
def readRadix (cursor : Cursor) (options : Options) (radix : Radix) : Reading Binary64 :=
  cursor.read (radix.literal? options)

/-- Reads a literal and its radix. -/
def readLiteral (cursor : Cursor) (options : Options) : Reading (Radix × Binary64) :=
  let literal? := options.literal? cursor.unread
  cursor.watch options (.ofLexeme cursor.offset literal?) literal?

/-- Reads the value of a literal. -/
def readNumber (cursor : Cursor) (options : Options) : Reading Binary64 :=
  (cursor.readLiteral options).map Prod.snd

/-- Reads the value of a literal after a sign that may be left out. The search for the literal
begins behind the sign.
-/
def readSignedNumber (cursor : Cursor) (options : Options) : Reading Binary64 :=
  let signLength := Sign.length (Sign.leading? cursor.unread)
  cursor.watch options
    (.ofLexeme (cursor.offset + signLength)
      (options.literal? (cursor.unread.drop signLength)))
    (options.signedNumber? cursor.unread)

/-- Reads an exponent with `marker`. -/
def readExponent (cursor : Cursor) (marker : Marker) : Reading Int :=
  cursor.read marker.exponent?

/-- Scales `mantissa` by the exponent at the cursor, if there is one. -/
def applyExponent (cursor : Cursor) (mantissa : Binary64) : Reading Binary64 :=
  cursor.read fun text => some (mantissa.applyExponent text)

end Cursor

/-- What comes of reading a number at the beginning of `text`. -/
def numberOf (text : String) : Outcome Binary64 :=
  .ofLexeme 0 (Options.number? {} text.toList)

/-- What comes of reading a number with a sign at the beginning of `text`. -/
def signedNumberOf (text : String) : Outcome Binary64 :=
  .ofLexeme 0 (Options.signedNumber? {} text.toList)

end Numeral
