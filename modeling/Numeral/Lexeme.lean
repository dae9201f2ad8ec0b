import Numeral.Fault

/-! A lexeme is what a reader finds at the beginning of a text, apart from where in a longer
text that beginning lies.
-/

namespace Numeral

structure Lexeme (α : Type) where
  /-- How many code points it takes. -/
  length : Nat
  /-- Its value, or the value of the part before the fault. -/
  value : α
  /-- What is wrong with it. The offending text is the last that it takes. -/
  fault : Option Fault := none
deriving DecidableEq

namespace Lexeme

variable {α β : Type}

def map (f : α → β) (lexeme : Lexeme α) : Lexeme β where
  length := lexeme.length
  value := f lexeme.value
  fault := lexeme.fault

/-- The lexeme together with `count` code points before it. -/
def extend (lexeme : Lexeme α) (count : Nat) : Lexeme α :=
  { lexeme with length := count + lexeme.length }

@[simp] theorem length_map (f : α → β) (lexeme : Lexeme α)
    : (lexeme.map f).length = lexeme.length := rfl

@[simp] theorem value_map (f : α → β) (lexeme : Lexeme α)
    : (lexeme.map f).value = f lexeme.value := rfl

@[simp] theorem fault_map (f : α → β) (lexeme : Lexeme α)
    : (lexeme.map f).fault = lexeme.fault := rfl

@[simp] theorem length_extend (lexeme : Lexeme α) (count : Nat)
    : (lexeme.extend count).length = count + lexeme.length := rfl

@[simp] theorem value_extend (lexeme : Lexeme α) (count : Nat)
    : (lexeme.extend count).value = lexeme.value := rfl

@[simp] theorem fault_extend (lexeme : Lexeme α) (count : Nat)
    : (lexeme.extend count).fault = lexeme.fault := rfl

end Lexeme

end Numeral
