import Numeral.Reading

/-! A reading sees the unread text and nothing else. What stands before the cursor moves every
position by its length and leaves all the rest of what is read as it is.
-/

namespace Numeral

variable {α β : Type}

-----------------------------------------------------------------------------------------
-- Moving positions
-----------------------------------------------------------------------------------------

/-- The defect as it is found behind `count` more code points. -/
def Defect.shift (defect : Defect) (count : Nat) : Defect :=
  { defect with
    start := count + defect.start
    stop := count + defect.stop }

/-- The outcome as it is found behind `count` more code points. -/
def Outcome.shift (outcome : Outcome α) (count : Nat) : Outcome α :=
  match outcome with
  | complete start stop value => .complete (count + start) (count + stop) value
  | absent start => .absent (count + start)
  | malformed start stop value fault => .malformed (count + start) (count + stop) value fault

/-- The event as it is told behind `count` more code points. -/
def Event.shift (event : Event) (count : Nat) : Event :=
  match event with
  | found start stop radix => .found (count + start) (count + stop) radix
  | notFound start => .notFound (count + start)
  | malformed start stop fault => .malformed (count + start) (count + stop) fault

/-- The same place with `before` in front of the text. -/
def Cursor.after (cursor : Cursor) (before : List Char) : Cursor where
  text := before ++ cursor.text
  offset := before.length + cursor.offset
  offset_le := by
    rw [List.length_append]
    exact Nat.add_le_add_left cursor.offset_le _

/-- The reading with `before` in front of the text. -/
def Reading.after (reading : Reading α) (before : List Char) : Reading α where
  outcome :=
    match reading.outcome with
    | .ok outcome => .ok (outcome.shift before.length)
    | .error defect => .error (defect.shift before.length)
  events := reading.events.map (·.shift before.length)
  cursor := reading.cursor.after before

/-- Reading is the same everywhere: text in front moves it as a whole, and two places with the
same offset and the same unread text cannot be told apart.
-/
structure Reading.Translates (read : Cursor → Reading α) : Prop where
  moved : ∀ before cursor, read (cursor.after before) = (read cursor).after before
  unreadOnly
    : ∀ cursor other,
        other.offset = cursor.offset
        → other.unread = cursor.unread
        → (read other).outcome = (read cursor).outcome
          ∧ (read other).events = (read cursor).events
          ∧ (read other).cursor.offset = (read cursor).cursor.offset

theorem Outcome.ofLexeme_shift (start count : Nat) (lexeme? : Option (Lexeme α))
    : ofLexeme (count + start) lexeme? = (ofLexeme start lexeme?).shift count := by
  rcases lexeme? with _ | ⟨length, value, _ | fault⟩
  · rfl
  all_goals simp only [ofLexeme, shift, Nat.add_assoc]

theorem Outcome.map_shift (outcome : Outcome α) (f : α → β) (count : Nat)
    : (outcome.shift count).map f = (outcome.map f).shift count := by
  cases outcome <;> rfl

theorem Outcome.toExcept_shift (outcome : Outcome Binary64) (count : Nat)
    : (outcome.shift count).toExcept = outcome.toExcept.mapError (·.shift count) := by
  cases outcome <;> rfl

theorem Event.ofOutcome_shift (outcome : Outcome (Radix × α)) (count : Nat)
    : ofOutcome (outcome.shift count) = (ofOutcome outcome).shift count := by
  cases outcome <;> rfl

namespace Cursor

theorem offset_after (cursor : Cursor) (before : List Char)
    : (cursor.after before).offset = before.length + cursor.offset := rfl

theorem unread_after (cursor : Cursor) (before : List Char)
    : (cursor.after before).unread = cursor.unread := by
  rw [unread, after, List.drop_append, unread]
  simp

theorem advance_after (cursor : Cursor) (before : List Char) (count : Nat)
    : (cursor.after before).advance count = (cursor.advance count).after before := by
  simp only [advance, seek, ofText, after, List.length_append, mk.injEq, true_and]
  omega

theorem behind_after (cursor : Cursor) (before : List Char) (lexeme? : Option (Lexeme α))
    : (cursor.after before).behind lexeme? = (cursor.behind lexeme?).after before := by
  cases lexeme? with
  | none => rfl
  | some lexeme => exact cursor.advance_after before lexeme.length

/-- Every cursor is one at the beginning of its unread text, with the rest in front. -/
theorem eq_after (cursor : Cursor)
    : cursor = (ofText cursor.unread 0).after (cursor.text.take cursor.offset) := by
  rcases cursor with ⟨text, offset, inside⟩
  simp [after, ofText, unread, Nat.min_eq_left inside]

theorem watch_after (cursor : Cursor) (before : List Char) (options : Options)
    (inner : Outcome (Radix × Binary64)) (lexeme? : Option (Lexeme α))
    : (cursor.after before).watch options (inner.shift before.length) lexeme?
      = (cursor.watch options inner lexeme?).after before := by
  unfold watch
  rw [Outcome.map_shift, Outcome.toExcept_shift, offset_after, Outcome.ofLexeme_shift,
    behind_after, Event.ofOutcome_shift]
  cases options.haltOnMalformed <;> cases (inner.map Prod.snd).toExcept <;> rfl

end Cursor

namespace Reading

/-- That text in front moves a reading says already that the reading does not see it. -/
theorem Translates.of_moved {read : Cursor → Reading α}
    (moved : ∀ before cursor, read (cursor.after before) = (read cursor).after before)
    : Translates read where
  moved := moved
  unreadOnly := by
    intro cursor other here same
    have length : (other.text.take other.offset).length
        = (cursor.text.take cursor.offset).length := by
      rw [List.length_take_of_le other.offset_le, List.length_take_of_le cursor.offset_le, here]
    rw [other.eq_after, cursor.eq_after, moved, moved, same]
    simp only [after, Cursor.after, length]
    exact ⟨trivial, trivial, trivial⟩

theorem map_after (reading : Reading α) (f : α → β) (before : List Char)
    : (reading.after before).map f = (reading.map f).after before := by
  rcases reading with ⟨defect | outcome, events, cursor⟩
  · rfl
  · exact congrArg (Reading.mk · _ _) (congrArg Except.ok (outcome.map_shift f before.length))

theorem Translates.map {read : Cursor → Reading α} (translates : Translates read) (f : α → β)
    : Translates fun cursor => (read cursor).map f := by
  refine .of_moved fun before cursor => ?_
  rw [translates.moved, map_after]

theorem translates_read (find? : List Char → Option (Lexeme α))
    : Translates fun cursor => cursor.read find? := by
  refine .of_moved fun before cursor => ?_
  simp only [Cursor.read, Cursor.unread_after, Cursor.offset_after, Outcome.ofLexeme_shift,
    Cursor.behind_after]
  rfl

theorem translates_readLiteral (options : Options)
    : Translates fun cursor => cursor.readLiteral options := by
  refine .of_moved fun before cursor => ?_
  simp only [Cursor.readLiteral, Cursor.unread_after, Cursor.offset_after,
    Outcome.ofLexeme_shift, Cursor.watch_after]

theorem translates_readSignedNumber (options : Options)
    : Translates fun cursor => cursor.readSignedNumber options := by
  refine .of_moved fun before cursor => ?_
  simp only [Cursor.readSignedNumber, Cursor.unread_after, Cursor.offset_after, Nat.add_assoc,
    Outcome.ofLexeme_shift, Cursor.watch_after]

end Reading

end Numeral
