import Numeral.Binary64.Basic
import Numeral.Lexeme
import Numeral.Text.Cursor

/-! What comes of reading at a place of a text. Nothing there is no error: another reading
may be tried. A malformed construct was certainly begun, and keeps the value it has so far.
-/

namespace Numeral

inductive Outcome (α : Type)
  /-- A construct spans `start` to `stop`. -/
  | complete (start stop : Nat) (value : α)
  /-- No construct begins at `start`. -/
  | absent (start : Nat)
  /-- A malformed construct spans `start` to `stop`. -/
  | malformed (start stop : Nat) (value : α) (fault : Fault)
deriving DecidableEq

/-- A malformed literal, told apart from the text it was found in. -/
structure Defect where
  fault : Fault
  start : Nat
  stop : Nat
  /-- The value of what was read before the fault. -/
  partialValue : Binary64
deriving DecidableEq

def Defect.message (defect : Defect) : String :=
  defect.fault.code ++ " at " ++ toString defect.start ++ ".." ++ toString defect.stop

namespace Outcome

variable {α β : Type}

def isComplete : Outcome α → Bool
  | complete .. => true
  | _ => false

def isAbsent : Outcome α → Bool
  | absent .. => true
  | _ => false

def isMalformed : Outcome α → Bool
  | malformed .. => true
  | _ => false

def start : Outcome α → Nat
  | complete start .. | absent start | malformed start .. => start

def stop? : Outcome α → Option Nat
  | complete _ stop _ | malformed _ stop .. => some stop
  | absent _ => none

def value? : Outcome α → Option α
  | complete _ _ value | malformed _ _ value _ => some value
  | absent _ => none

def fault? : Outcome α → Option Fault
  | malformed _ _ _ fault => some fault
  | _ => none

def map (f : α → β) : Outcome α → Outcome β
  | complete start stop value => .complete start stop (f value)
  | absent start => .absent start
  | malformed start stop value fault => .malformed start stop (f value) fault

/-- The outcome of a construct that begins at `start`, with what stands before it. -/
def startingAt (outcome : Outcome α) (start : Nat) : Outcome α :=
  match outcome with
  | complete _ stop value => .complete start stop value
  | absent _ => .absent start
  | malformed _ stop value fault => .malformed start stop value fault

/-- The value if there is one, and the defect of a malformed construct as an error. -/
def toExcept : Outcome Binary64 → Except Defect (Option Binary64)
  | complete _ _ value => .ok (some value)
  | absent _ => .ok none
  | malformed start stop value fault =>
      .error
        { fault := fault
          start := start
          stop := stop
          partialValue := value }

/-- Whether two outcomes are the same, with `same` to compare their values. -/
def agrees (same : α → α → Bool) : Outcome α → Outcome α → Bool
  | complete start stop value, complete start' stop' value' =>
      start == start' && stop == stop' && same value value'
  | absent start, absent start' => start == start'
  | malformed start stop value fault, malformed start' stop' value' fault' =>
      start == start' && stop == stop' && same value value' && fault == fault'
  | _, _ => false

/-- The outcome of finding `lexeme?` at `start`. -/
def ofLexeme (start : Nat) : Option (Lexeme α) → Outcome α
  | none => .absent start
  | some ⟨length, value, none⟩ => .complete start (start + length) value
  | some ⟨length, value, some fault⟩ => .malformed start (start + length) value fault

end Outcome

namespace Cursor

variable {α : Type}

/-- A construct that spans from the cursor to `stop`. -/
def complete (cursor : Cursor) (stop : Nat) (value : α) : Outcome α :=
  .complete cursor.offset stop value

/-- No construct at the cursor. -/
def absent (cursor : Cursor) : Outcome α :=
  .absent cursor.offset

/-- A malformed construct that spans from the cursor to `stop`. -/
def malformed (cursor : Cursor) (stop : Nat) (value : α) (fault : Fault) : Outcome α :=
  .malformed cursor.offset stop value fault

end Cursor

end Numeral
