import Numeral.Proofs.Literal.Extent
import Numeral.Reading

/-! What a caller may rely on after reading at a cursor, whatever the text: where the span
lies and where the cursor is. It follows from what the finders take, once for a reading that
is unwatched and once for one that is watched.
-/

namespace Numeral

variable {α β : Type}

/-- The reading fits the place of `cursor`: it was not stopped. Nothing found has left the
cursor alone, and what was found spans from the cursor to where the cursor is afterwards,
which is further on and inside the text.
-/
def Reading.FitsAt (cursor : Cursor) (reading : Reading α) : Prop :=
  match reading.outcome with
  | .error _ => False
  | .ok (.absent start) => start = cursor.offset ∧ reading.cursor = cursor
  | .ok (.complete start stop _) | .ok (.malformed start stop _ _) =>
      start = cursor.offset
      ∧ start < stop
      ∧ stop ≤ cursor.length
      ∧ reading.cursor.offset = stop
      ∧ reading.cursor.text = cursor.text

theorem Reading.FitsAt.map {cursor : Cursor} {reading : Reading α}
    (fits : reading.FitsAt cursor) (f : α → β)
    : (reading.map f).FitsAt cursor := by
  rcases reading with ⟨outcome, events, after⟩
  rcases outcome with defect | outcome
  · exact fits
  · cases outcome <;> exact fits

/-- What was found has a span, and the span ends where the cursor is. -/
theorem Reading.FitsAt.span {cursor : Cursor} {reading : Reading α}
    (fits : reading.FitsAt cursor) {outcome : Outcome α}
    (found : reading.outcome = .ok outcome) (present : outcome.isAbsent = false)
    : outcome.start = cursor.offset
      ∧ outcome.stop? = some reading.cursor.offset
      ∧ cursor.offset < reading.cursor.offset
      ∧ reading.cursor.text = cursor.text := by
  rw [FitsAt, found] at fits
  cases outcome with
  | absent start => contradiction
  | complete start stop value | malformed start stop value fault =>
      obtain ⟨rfl, progress, -, rfl, same⟩ := fits
      exact ⟨rfl, rfl, progress, same⟩

/-- The cursor is where the outcome ends, and where it was if there is no end. -/
theorem Reading.FitsAt.offset_eq {cursor : Cursor} {reading : Reading α}
    (fits : reading.FitsAt cursor) {outcome : Outcome α}
    (found : reading.outcome = .ok outcome)
    : reading.cursor.offset = outcome.stop?.getD cursor.offset := by
  rw [FitsAt, found] at fits
  cases outcome with
  | absent start => rw [fits.2]; rfl
  | complete start stop value => exact fits.2.2.2.1
  | malformed start stop value fault => exact fits.2.2.2.1

namespace Cursor

theorem advance_fits (cursor : Cursor) {count : Nat} (inside : count ≤ cursor.unread.length)
    : (cursor.advance count).offset = cursor.offset + count := by
  have here := cursor.offset_le_length
  rw [length_unread] at inside
  simp only [advance, offset_seek]
  omega

/-- A lexeme that is part of the unread text fits where the cursor is. -/
theorem fitsAt_ofLexeme (cursor : Cursor) (events : List Event) {lexeme? : Option (Lexeme α)}
    (takes : ∀ lexeme, lexeme? = some lexeme →
      0 < lexeme.length ∧ lexeme.length ≤ cursor.unread.length)
    : Reading.FitsAt cursor
        { outcome := .ok (.ofLexeme cursor.offset lexeme?)
          events := events
          cursor := cursor.behind lexeme? } := by
  cases lexeme? with
  | none => exact ⟨rfl, rfl⟩
  | some lexeme =>
      obtain ⟨positive, inside⟩ := takes lexeme rfl
      have behind := cursor.advance_fits inside
      have here := cursor.offset_le_length
      rw [length_unread] at inside
      rcases lexeme with ⟨length, value, fault⟩
      dsimp only at positive inside behind
      cases fault <;> exact ⟨rfl, by omega, by omega, behind, rfl⟩

theorem read_fitsAt (cursor : Cursor) {find? : List Char → Option (Lexeme α)}
    (takes : TakesPart find?)
    : (cursor.read find?).FitsAt cursor :=
  cursor.fitsAt_ofLexeme [] (takes cursor.unread)

/-- A reading that nothing may stop is told by one event. -/
theorem watch_of_running (cursor : Cursor) {options : Options}
    (running : options.haltOnMalformed = false) (inner : Outcome (Radix × Binary64))
    (lexeme? : Option (Lexeme α))
    : cursor.watch options inner lexeme?
      = { outcome := .ok (.ofLexeme cursor.offset lexeme?)
          events := [.ofOutcome inner]
          cursor := cursor.behind lexeme? } := by
  rw [watch, running]

/-- A reading that is not stopped, since it may not be or there is no reason, tells of itself. -/
theorem watch_of_unhalted (cursor : Cursor) {options : Options}
    {inner : Outcome (Radix × Binary64)}
    (unhalted : options.haltOnMalformed = false ∨ inner.isMalformed = false)
    (lexeme? : Option (Lexeme α))
    : cursor.watch options inner lexeme?
      = { outcome := .ok (.ofLexeme cursor.offset lexeme?)
          events := [.ofOutcome inner]
          cursor := cursor.behind lexeme? } := by
  rcases unhalted with running | sound
  · exact cursor.watch_of_running running inner lexeme?
  · unfold watch
    cases inner with
    | complete | absent => cases options.haltOnMalformed <;> rfl
    | malformed => contradiction

/-- A reading that is stopped leaves the defect, and the cursor behind it. -/
theorem watch_of_halted (cursor : Cursor) {options : Options}
    (halting : options.haltOnMalformed = true) (start stop : Nat) (value : Radix × Binary64)
    (fault : Fault) (lexeme? : Option (Lexeme α))
    : cursor.watch options (.malformed start stop value fault) lexeme?
      = { outcome := .error ⟨fault, start, stop, value.2⟩
          events := []
          cursor := cursor.behind lexeme? } := by
  rw [watch, halting]
  rfl

/-- Stopped or not, a watched reading is behind what it found. -/
theorem cursor_watch (cursor : Cursor) (options : Options) (inner : Outcome (Radix × Binary64))
    (lexeme? : Option (Lexeme α))
    : (cursor.watch options inner lexeme?).cursor = cursor.behind lexeme? := by
  unfold watch
  split <;> rfl

/-- Watching changes nothing about the place when nothing may stop the reading. -/
theorem watch_fitsAt (cursor : Cursor) {options : Options}
    (running : options.haltOnMalformed = false) (inner : Outcome (Radix × Binary64))
    {lexeme? : Option (Lexeme α)}
    (takes : ∀ lexeme, lexeme? = some lexeme →
      0 < lexeme.length ∧ lexeme.length ≤ cursor.unread.length)
    : (cursor.watch options inner lexeme?).FitsAt cursor := by
  rw [cursor.watch_of_running running]
  exact cursor.fitsAt_ofLexeme _ takes

theorem readRadix_fitsAt (cursor : Cursor) (options : Options) (radix : Radix)
    : (cursor.readRadix options radix).FitsAt cursor :=
  cursor.read_fitsAt (radix.literal?_takesPart options)

theorem readLiteral_fitsAt (cursor : Cursor) {options : Options}
    (running : options.haltOnMalformed = false)
    : (cursor.readLiteral options).FitsAt cursor :=
  cursor.watch_fitsAt running _ (options.literal?_takesPart cursor.unread)

theorem readNumber_fitsAt (cursor : Cursor) {options : Options}
    (running : options.haltOnMalformed = false)
    : (cursor.readNumber options).FitsAt cursor :=
  (cursor.readLiteral_fitsAt running).map Prod.snd

theorem readSignedNumber_fitsAt (cursor : Cursor) {options : Options}
    (running : options.haltOnMalformed = false)
    : (cursor.readSignedNumber options).FitsAt cursor :=
  cursor.watch_fitsAt running _ (options.signedNumber?_takesPart cursor.unread)

/-- Every way to read a literal fits every place of every text. -/
theorem readings_fit (cursor : Cursor) (options : Options)
    (running : options.haltOnMalformed = false)
    : (∀ radix, (cursor.readRadix options radix).FitsAt cursor)
      ∧ (cursor.readLiteral options).FitsAt cursor
      ∧ (cursor.readNumber options).FitsAt cursor
      ∧ (cursor.readSignedNumber options).FitsAt cursor :=
  ⟨cursor.readRadix_fitsAt options, cursor.readLiteral_fitsAt running,
    cursor.readNumber_fitsAt running, cursor.readSignedNumber_fitsAt running⟩

theorem readings_fit_malformed_exponent
    : ((ofText "a-3e+".toList 1).readSignedNumber {}).FitsAt (ofText "a-3e+".toList 1) :=
  (readings_fit (ofText "a-3e+".toList 1) {} rfl).2.2.2

end Cursor

end Numeral
