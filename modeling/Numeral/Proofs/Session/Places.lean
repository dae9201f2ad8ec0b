import Numeral.Proofs.Reading.Watching
import Numeral.Session

/-! A session never leaves its text. Whatever the commands are and however they end, the cursor is
at a place of the same text after each of them, and only a seek moves it back: a reading leaves it
or takes it on to the end that it reports.
-/

namespace Numeral

variable {α : Type}

-----------------------------------------------------------------------------------------
-- Places and moves
-----------------------------------------------------------------------------------------

/-- The cursor is at a place of the text, with what is unread from there on. -/
structure Cursor.IsPlaceOf (text : List Char) (cursor : Cursor) : Prop where
  text_eq : cursor.text = text
  offset_le : cursor.offset ≤ text.length
  unread_eq : cursor.unread = text.drop cursor.offset
  length_unread : cursor.unread.length = text.length - cursor.offset
  peek?_eq : cursor.peek? = cursor.unread.head?
  peek?_eq_none_iff : cursor.peek? = none ↔ cursor.isAtEnd = true

/-- What came of a reading says that it ended at `stop`: an outcome by its span, and a defect by the
message it is told with.
-/
inductive Reading.EndsAt : Except Defect (Outcome α) → Nat → Prop
  | outcome {outcome stop} (span : outcome.stop? = some stop) : EndsAt (.ok outcome) stop
  | defect {defect : Defect} {stop}
    (message
      : defect.haltMessage
        = "malformed number literal: " ++ defect.fault.code ++ " at " ++ toString defect.start
          ++ ".." ++ toString stop)
    : EndsAt (.error defect) stop

/-- The reply says that the reading ended at `stop`. -/
def Reply.EndsAt (reply : Reply) (stop : Nat) : Prop :=
  match reply with
  | .moved => False
  | .number outcome => Reading.EndsAt outcome stop
  | .literal outcome => Reading.EndsAt outcome stop
  | .exponent outcome => Reading.EndsAt outcome stop

/-- The cursor moves from the first place to the one in the answer as the command allows. -/
structure Command.Moves (command : Command) (cursor : Cursor) (answer : Reply × Cursor) : Prop where
  sought : ∀ offset, command = .seek offset → answer.2.offset = min offset cursor.length
  read
    : (∀ offset, command ≠ .seek offset)
      → answer.2.offset = cursor.offset
        ∨ (cursor.offset < answer.2.offset ∧ answer.1.EndsAt answer.2.offset)

/-- From the cursor on, the commands get these answers: each moves the cursor as it may, and to a
place of the text.
-/
inductive Session.Stays (text : List Char) : Cursor → List Command → List (Reply × Cursor) → Prop
  | done {cursor} : Stays text cursor [] []
  | step {cursor command commands answer answers} (moves : Command.Moves command cursor answer)
    (place : answer.2.IsPlaceOf text) (rest : Stays text answer.2 commands answers)
    : Stays text cursor (command :: commands) (answer :: answers)

theorem Cursor.isPlaceOf_text (cursor : Cursor)
    : cursor.IsPlaceOf cursor.text where
  text_eq := rfl
  offset_le := cursor.offset_le
  unread_eq := rfl
  length_unread := cursor.length_unread
  peek?_eq := cursor.peek?_eq_head?_unread
  peek?_eq_none_iff := by
    rw [peek?, get?, List.getElem?_eq_none_iff, isAtEnd_iff]
    exact ⟨fun past => Nat.le_antisymm cursor.offset_le past, fun atEnd => Nat.le_of_eq atEnd.symm⟩

-----------------------------------------------------------------------------------------
-- One reading
-----------------------------------------------------------------------------------------

/-- The reading leaves the cursor in its text, where it was or further on at the end it reports. -/
structure Reading.Lands (cursor : Cursor) (reading : Reading α) : Prop where
  sameText : reading.cursor.text = cursor.text
  moves
    : reading.cursor.offset = cursor.offset
      ∨ (cursor.offset < reading.cursor.offset ∧ EndsAt reading.outcome reading.cursor.offset)

/-- A reading that ends behind a part of the unread text, and says so, lands there. -/
theorem Reading.Lands.of_behind {cursor : Cursor} {reading : Reading α}
    {lexeme? : Option (Lexeme α)} (behind : reading.cursor = cursor.behind lexeme?)
    (inside : ∀ lexeme, lexeme? = some lexeme → lexeme.length ≤ cursor.unread.length)
    (ends
      : ∀ lexeme, lexeme? = some lexeme → EndsAt reading.outcome (cursor.offset + lexeme.length))
    : reading.Lands cursor := by
  cases lexeme? with
  | none => exact ⟨congrArg Cursor.text behind, .inl (congrArg Cursor.offset behind)⟩
  | some lexeme =>
      have place : reading.cursor.offset = cursor.offset + lexeme.length :=
        (congrArg Cursor.offset behind).trans (cursor.advance_fits (inside lexeme rfl))
      refine ⟨(congrArg Cursor.text behind).trans rfl, ?_⟩
      rw [place]
      rcases Nat.eq_zero_or_pos lexeme.length with nothing | forward
      · exact .inl (by omega)
      · exact .inr ⟨by omega, ends lexeme rfl⟩

theorem Outcome.stop?_ofLexeme_some (start : Nat) (lexeme : Lexeme α)
    : (ofLexeme start (some lexeme)).stop? = some (start + lexeme.length) := by
  rcases lexeme with ⟨length, value, _ | fault⟩ <;> rfl

namespace Cursor

/-- An unwatched reading lands behind what it finds, be it nothing at all. -/
theorem lands_read (cursor : Cursor) {find? : List Char → Option (Lexeme α)}
    (inside : ∀ text lexeme, find? text = some lexeme → lexeme.length ≤ text.length)
    : (cursor.read find?).Lands cursor := by
  refine .of_behind rfl (inside cursor.unread) fun lexeme found => .outcome ?_
  rw [found, Outcome.stop?_ofLexeme_some]

/-- A watched reading does too, whether a malformed literal stops it or not. -/
theorem lands_watchAhead (cursor : Cursor) (options : Options) {ahead : Nat}
    (inside : ahead ≤ cursor.unread.length) (f : Radix × Binary64 → α)
    : (cursor.watchAhead options ahead f).Lands cursor := by
  refine .of_behind (cursor.cursor_watch options _ _) ?_ ?_
  · intro lexeme found
    obtain ⟨literal, own, rfl⟩ := Option.map_eq_some_iff.mp found
    exact cursor.le_length_unread options inside own
  · intro lexeme found
    obtain ⟨literal, own, rfl⟩ := Option.map_eq_some_iff.mp found
    rw [watchAhead, own, Option.map_some]
    cases halts : options.haltOnMalformed with
    | false =>
        rw [cursor.watch_of_running halts]
        exact .outcome (Outcome.stop?_ofLexeme_some ..)
    | true =>
        rcases literal with ⟨length, number, _ | fault⟩
        · rw [cursor.watch_of_unhalted (.inr rfl)]
          exact .outcome (Outcome.stop?_ofLexeme_some ..)
        · rw [Outcome.ofLexeme, cursor.watch_of_halted halts]
          refine .defect ?_
          rw [Defect.haltMessage_eq, Nat.add_assoc]
          rfl

/-- Whatever exponent is found or is not, applying it reads no further than the text. -/
theorem lands_applyExponent (cursor : Cursor) (mantissa : Binary64)
    : (cursor.applyExponent mantissa).Lands cursor := by
  refine cursor.lands_read fun text lexeme found => ?_
  obtain rfl := Option.some.inj found
  exact Binary64.length_scaleBy_le ..

end Cursor

-----------------------------------------------------------------------------------------
-- One command, and many
-----------------------------------------------------------------------------------------

theorem Reading.Lands.isPlaceOf {cursor : Cursor} {reading : Reading α}
    (lands : reading.Lands cursor)
    : reading.cursor.IsPlaceOf cursor.text :=
  lands.sameText ▸ reading.cursor.isPlaceOf_text

namespace Command

/-- A command that is a reading moves the cursor as the reading does. -/
theorem moves_of_lands {command : Command} (reads : ∀ offset, command ≠ .seek offset)
    {cursor : Cursor} {reading : Reading α} (lands : reading.Lands cursor) {answer : Except Defect (Outcome α) → Reply}
    (reports : ∀ outcome stop, Reading.EndsAt outcome stop → (answer outcome).EndsAt stop)
    : command.Moves cursor (reply answer reading)
      ∧ (reply answer reading).2.IsPlaceOf cursor.text := by
  refine ⟨⟨fun offset seeks => (reads offset seeks).elim, fun _ => ?_⟩, lands.isPlaceOf⟩
  exact lands.moves.imp_right fun forward => ⟨forward.1, reports _ _ forward.2⟩

/-- One step of a session. -/
theorem run_moves (command : Command) (cursor : Cursor)
    : command.Moves cursor (command.run cursor)
      ∧ (command.run cursor).2.IsPlaceOf cursor.text := by
  cases command with
  | seek offset =>
      refine ⟨⟨?_, fun reads => (reads offset rfl).elim⟩, (cursor.seek offset).isPlaceOf_text⟩
      rintro _ ⟨⟩
      rfl
  | ofRadix radix options =>
      refine moves_of_lands (by simp) ?_ fun _ _ ends => ends
      exact cursor.lands_read fun text lexeme found =>
        (radix.literal?_takesPart options text lexeme found).2
  | literal options =>
      refine moves_of_lands (by simp) ?_ fun _ _ ends => ends
      rw [Cursor.readLiteral_eq_watchAhead]
      exact cursor.lands_watchAhead options (Nat.zero_le _) id
  | number options =>
      refine moves_of_lands (by simp) ?_ fun _ _ ends => ends
      rw [Cursor.readNumber_eq_watchAhead]
      exact cursor.lands_watchAhead options (Nat.zero_le _) Prod.snd
  | signedNumber options =>
      refine moves_of_lands (by simp) ?_ fun _ _ ends => ends
      rw [Cursor.readSignedNumber_eq_watchAhead]
      exact cursor.lands_watchAhead options cursor.signLength_le _
  | exponent marker =>
      refine moves_of_lands (by simp) ?_ fun _ _ ends => ends
      exact cursor.lands_read fun text lexeme found =>
        (marker.exponent?_takesPart text lexeme found).2
  | applyExponent mantissa =>
      exact moves_of_lands (by simp) (cursor.lands_applyExponent mantissa) fun _ _ ends => ends

end Command

namespace Session

/-- A whole session, from any place of the text. -/
theorem run_stays (commands : List Command) {text : List Char} {cursor : Cursor}
    (place : cursor.IsPlaceOf text)
    : Stays text cursor commands (run commands cursor) := by
  induction commands generalizing cursor with
  | nil => exact .done
  | cons command commands ih =>
      obtain ⟨moves, next⟩ := command.run_moves cursor
      rw [place.text_eq] at next
      exact .step moves next (ih next)

/-- From wherever it starts, a session of whatever commands stays in its text, and moves on only to
the ends that its readings report.
-/
theorem sessions_stay (text : List Char) (offset : Nat) (commands : List Command)
    : (Cursor.ofText text offset).offset = min offset text.length
      ∧ (Cursor.ofText text offset).IsPlaceOf text
      ∧ Stays text (.ofText text offset) commands (run commands (.ofText text offset)) := by
  have place : (Cursor.ofText text offset).IsPlaceOf text :=
    (Cursor.ofText text offset).isPlaceOf_text
  exact ⟨rfl, place, run_stays commands place⟩

end Session

end Numeral
