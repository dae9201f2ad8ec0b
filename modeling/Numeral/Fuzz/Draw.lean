/-! Random choices read off a tape of bytes. Behind its end a tape goes on with zeros. -/

namespace Numeral.Fuzz

/-- A random value, made from the bytes of a tape. -/
abbrev Draw : Type → Type := StateM (List UInt8)

namespace Draw

variable {α : Type}

def byte : Draw UInt8 := fun tape => (tape.headD 0, tape.tail)

/-- A number below `n`. -/
def below (n : Nat) : Draw Nat := do
  return (← byte).toNat % n

def coin : Draw Bool := do
  return (← byte).toNat % 2 == 1

/-- One of `first` and `others`. -/
def oneOf (first : α) (others : List α) : Draw α := do
  return (first :: others).getD (← below (others.length + 1)) first

def times : Nat → Draw α → Draw (List α)
  | 0, _ => return []
  | n + 1, draw => do
      let first ← draw
      return first :: (← times n draw)

/-- At most `most` values of `draw`. -/
def upTo (most : Nat) (draw : Draw α) : Draw (List α) := do
  times (← below (most + 1)) draw

/-- What `draw` gives, or nothing. -/
def sometimes (draw : Draw (List α)) : Draw (List α) := do
  if ← coin then draw else return []

end Draw

end Numeral.Fuzz
