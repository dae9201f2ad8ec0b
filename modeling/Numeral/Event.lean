import Numeral.Outcome
import Numeral.Radix

/-! What a search for a literal tells about itself while it runs. -/

namespace Numeral

inductive Level
  | trace
  | debug
deriving DecidableEq

def Level.name : Level → String
  | .trace => "TRACE"
  | .debug => "DEBUG"

/-- What is told of one search for a literal. Spans are those of the literal without a sign. -/
inductive Event
  | found (start stop : Nat) (radix : Radix)
  | notFound (start : Nat)
  | malformed (start stop : Nat) (fault : Fault)
deriving DecidableEq

namespace Event

def level : Event → Level
  | found .. | notFound .. => .trace
  | malformed .. => .debug

def message : Event → String
  | found .. => "number literal"
  | notFound .. => "no number literal"
  | malformed .. => "malformed number literal"

/-- The event of an outcome. -/
def ofOutcome {α : Type} : Outcome (Radix × α) → Event
  | .complete start stop (radix, _) => .found start stop radix
  | .absent start => .notFound start
  | .malformed start stop _ fault => .malformed start stop fault

end Event

/-- How a defect that stops the reading is told: as its event would be, and where it lies. -/
def Defect.haltMessage (defect : Defect) : String :=
  (Event.malformed defect.start defect.stop defect.fault).message ++ ": " ++ defect.message

end Numeral
