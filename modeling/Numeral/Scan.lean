import Numeral.Reading

/-! Finding every literal of a text: read, go on behind what was found, and by one code point
where nothing was.
-/

namespace Numeral

/-- What a scan found, in order, and where it ended. -/
structure Scan (α : Type) where
  found : List (Except Defect (Outcome α))
  cursor : Cursor

namespace Scan

variable {α : Type}

/-- Whether a reading found nothing. -/
def isAbsent (outcome : Except Defect (Outcome α)) : Bool :=
  match outcome with
  | .ok outcome => outcome.isAbsent
  | .error _ => false

/-- Scans from the cursor to the end of its text. However `read` behaves, each step goes on by
one code point at least.
-/
def run (read : Cursor → Reading α) (cursor : Cursor) : Scan α :=
  if cursor.offset < cursor.length then
    let reading := read cursor
    if isAbsent reading.outcome then run read (cursor.advance 1)
    else
      let rest := run read (cursor.seek (max (cursor.offset + 1) reading.cursor.offset))
      { rest with found := reading.outcome :: rest.found }
  else
    { found := []
      cursor := cursor }
termination_by cursor.length - cursor.offset
decreasing_by
  · simp only [Cursor.advance, Cursor.offset_seek, Cursor.length_seek]
    omega
  · simp only [Cursor.offset_seek, Cursor.length_seek]
    omega

end Scan

end Numeral
