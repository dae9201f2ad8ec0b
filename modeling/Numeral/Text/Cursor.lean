/-! A cursor is a place in a text. Its offset counts code points and never passes the end,
so the unread part always exists.
-/

namespace Numeral

structure Cursor where
  text : List Char
  offset : Nat
  offset_le : offset ≤ text.length
deriving DecidableEq

namespace Cursor

/-- The cursor at `offset`, or at the end of a text that is shorter. -/
def ofText (text : List Char) (offset : Nat) : Cursor where
  text := text
  offset := min offset text.length
  offset_le := Nat.min_le_right offset text.length

/-- Moves to `offset`, or to the end of a text that is shorter. -/
def seek (cursor : Cursor) (offset : Nat) : Cursor :=
  ofText cursor.text offset

/-- Moves on by `count` code points, and no further than the end. -/
def advance (cursor : Cursor) (count : Nat) : Cursor :=
  cursor.seek (cursor.offset + count)

def length (cursor : Cursor) : Nat :=
  cursor.text.length

def isEmpty (cursor : Cursor) : Bool :=
  cursor.text.isEmpty

def isAtEnd (cursor : Cursor) : Bool :=
  cursor.offset == cursor.length

def get? (cursor : Cursor) (index : Nat) : Option Char :=
  cursor.text[index]?

def peek? (cursor : Cursor) : Option Char :=
  cursor.get? cursor.offset

def unread (cursor : Cursor) : List Char :=
  cursor.text.drop cursor.offset

@[simp] theorem text_seek (cursor : Cursor) (offset : Nat)
    : (cursor.seek offset).text = cursor.text := rfl

@[simp] theorem offset_seek (cursor : Cursor) (offset : Nat)
    : (cursor.seek offset).offset = min offset cursor.length := rfl

@[simp] theorem length_seek (cursor : Cursor) (offset : Nat)
    : (cursor.seek offset).length = cursor.length := rfl

@[simp] theorem length_unread (cursor : Cursor)
    : cursor.unread.length = cursor.length - cursor.offset := by
  simp [unread, length]

theorem peek?_eq_head?_unread (cursor : Cursor)
    : cursor.peek? = cursor.unread.head? := by
  simp [peek?, get?, unread, List.head?_drop]

theorem offset_le_length (cursor : Cursor)
    : cursor.offset ≤ cursor.length :=
  cursor.offset_le

theorem isAtEnd_iff (cursor : Cursor)
    : cursor.isAtEnd = true ↔ cursor.offset = cursor.length := by
  simp [isAtEnd]

theorem isAtEnd_eq_false_iff (cursor : Cursor)
    : cursor.isAtEnd = false ↔ cursor.offset < cursor.length := by
  have inside := cursor.offset_le_length
  simp only [isAtEnd, beq_eq_false_iff_ne]
  omega

/-- Every cursor of a text can be sought from every other. -/
theorem seek_offset {cursor other : Cursor} (sameText : other.text = cursor.text)
    : cursor.seek other.offset = other := by
  rcases other with ⟨text, offset, inside⟩
  dsimp only at sameText
  subst sameText
  simp [seek, ofText, Nat.min_eq_left inside]

end Cursor

end Numeral
