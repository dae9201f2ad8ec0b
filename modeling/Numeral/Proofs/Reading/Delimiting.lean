import Numeral.Proofs.Literal.Delimiting
import Numeral.Reading

/-! The span of what was read can be cut out of its text: reading again where the text ends
behind it gives the same. Reading one radix gives the same in every text that agrees with the
first up to two code points behind the span.
-/

namespace Numeral

variable {α β : Type}

/-- The same place in the text up to `stop`. -/
def Cursor.upTo (cursor : Cursor) (stop : Nat) : Cursor :=
  ofText (cursor.text.take stop) cursor.offset

/-- What was found, complete or malformed, is found again where the text ends behind it. -/
def Reading.SelfDelimiting (read : Cursor → Reading α) : Prop :=
  ∀ cursor outcome stop,
    (read cursor).outcome = .ok outcome
    → outcome.stop? = some stop
    → (read (cursor.upTo stop)).outcome = .ok outcome

/-- What was found, complete or malformed, is found in every text that has the same code points,
or ends at the same place, from the cursor to `count` places behind the span.
-/
def Reading.LooksAhead (count : Nat) (read : Cursor → Reading α) : Prop :=
  ∀ cursor other outcome stop,
    (read cursor).outcome = .ok outcome
    → outcome.stop? = some stop
    → other.offset = cursor.offset
    → (∀ index, cursor.offset ≤ index → index < stop + count → other.get? index = cursor.get? index)
    → (read other).outcome = .ok outcome

namespace Cursor

variable {cursor other : Cursor}

theorem offset_upTo (cursor : Cursor) (length : Nat)
    : (cursor.upTo (cursor.offset + length)).offset = cursor.offset := by
  have inside := cursor.offset_le
  simp only [upTo, ofText, List.length_take]
  omega

theorem unread_upTo (cursor : Cursor) (length : Nat)
    : (cursor.upTo (cursor.offset + length)).unread = cursor.unread.take length := by
  rw [unread, offset_upTo, unread, upTo, ofText, List.drop_take, Nat.add_sub_cancel_left]

/-- Texts that agree on some places from the cursor on begin with the same code points there. -/
theorem take_unread_of_agree {stop : Nat} (here : other.offset = cursor.offset)
    (agree : ∀ index,
      cursor.offset ≤ index → index < stop → other.get? index = cursor.get? index)
    : other.unread.take (stop - cursor.offset) = cursor.unread.take (stop - cursor.offset) := by
  apply List.ext_getElem?
  intro index
  rw [List.getElem?_take, List.getElem?_take]
  split
  next inside =>
    have same := agree (cursor.offset + index) (by omega) (by omega)
    simpa [unread, get?, here] using same
  next => rfl

theorem stop?_ofLexeme {start : Nat} {lexeme? : Option (Lexeme α)} {stop : Nat}
    (stops : (Outcome.ofLexeme start lexeme?).stop? = some stop)
    : ∃ lexeme, lexeme? = some lexeme ∧ stop = start + lexeme.length := by
  rcases lexeme? with _ | ⟨length, value, _ | fault⟩ <;> cases stops
  · exact ⟨_, rfl, rfl⟩
  · exact ⟨_, rfl, rfl⟩

/-- Of the text a watched reading needs only the place. -/
theorem outcome_watch_congr (here : other.offset = cursor.offset) (options : Options)
    (inner : Outcome (Radix × Binary64)) (lexeme? : Option (Lexeme α))
    : (other.watch options inner lexeme?).outcome
      = (cursor.watch options inner lexeme?).outcome := by
  unfold watch
  rw [here]
  split <;> rfl

/-- A watched reading that was not stopped is what an unwatched one would be. -/
theorem eq_ofLexeme_of_watch {options : Options} {inner : Outcome (Radix × Binary64)}
    {lexeme? : Option (Lexeme α)} {outcome : Outcome α}
    (found : (cursor.watch options inner lexeme?).outcome = .ok outcome)
    : outcome = .ofLexeme cursor.offset lexeme? := by
  unfold watch at found
  split at found
  next => contradiction
  next => exact (Except.ok.inj found).symm

end Cursor

namespace Reading

-----------------------------------------------------------------------------------------
-- Cutting the text
-----------------------------------------------------------------------------------------

theorem SelfDelimiting.map {read : Cursor → Reading α} (delimiting : SelfDelimiting read)
    (f : α → β)
    : SelfDelimiting fun cursor => (read cursor).map f := by
  intro cursor outcome stop found stops
  cases inner : (read cursor).outcome with
  | error defect =>
      simp only [Reading.map, inner] at found
      contradiction
  | ok innerOutcome =>
      simp only [Reading.map, inner] at found
      obtain rfl := Except.ok.inj found
      have same := delimiting cursor innerOutcome stop inner
        (by cases innerOutcome <;> exact stops)
      simp only [Reading.map, same]
      rfl

theorem selfDelimiting_readRadix (options : Options) (radix : Radix)
    : SelfDelimiting fun cursor => cursor.readRadix options radix := by
  rintro cursor outcome stop ⟨⟩ stops
  obtain ⟨lexeme, found, rfl⟩ := Cursor.stop?_ofLexeme stops
  have same := (radix.literal?_delimited options).selfDelimited.take
    (radix.literal?_takesPart options) found
  simp only [Cursor.readRadix, Cursor.read, Cursor.offset_upTo, Cursor.unread_upTo, same, found]

theorem selfDelimiting_readLiteral (options : Options)
    : SelfDelimiting fun cursor => cursor.readLiteral options := by
  intro cursor outcome stop found stops
  obtain rfl := Cursor.eq_ofLexeme_of_watch found
  obtain ⟨lexeme, literal, rfl⟩ := Cursor.stop?_ofLexeme stops
  have same := options.literal?_selfDelimited.take options.literal?_takesPart literal
  dsimp only at found ⊢
  rw [← found, Cursor.readLiteral, Cursor.unread_upTo, Cursor.offset_upTo, same, ← literal]
  exact Cursor.outcome_watch_congr (cursor.offset_upTo _) ..

theorem selfDelimiting_readSignedNumber (options : Options)
    : SelfDelimiting fun cursor => cursor.readSignedNumber options := by
  intro cursor outcome stop found stops
  obtain rfl := Cursor.eq_ofLexeme_of_watch found
  obtain ⟨lexeme, number, rfl⟩ := Cursor.stop?_ofLexeme stops
  obtain ⟨sign, literal⟩ := Options.signed_take number
  dsimp only at found ⊢
  rw [← found, Cursor.readSignedNumber, Cursor.unread_upTo, Cursor.offset_upTo, sign, literal,
    Options.signedNumber?_take number, ← number]
  exact Cursor.outcome_watch_congr (cursor.offset_upTo _) ..

-----------------------------------------------------------------------------------------
-- Changing the text
-----------------------------------------------------------------------------------------

theorem looksAhead_readRadix (options : Options) (radix : Radix)
    : LooksAhead 2 fun cursor => cursor.readRadix options radix := by
  rintro cursor other outcome stop ⟨⟩ stops here agree
  obtain ⟨lexeme, found, rfl⟩ := Cursor.stop?_ofLexeme stops
  have begins := Cursor.take_unread_of_agree here agree
  rw [Nat.add_assoc, Nat.add_sub_cancel_left] at begins
  have same := (radix.literal?_delimited options).of_take (radix.literal?_takesPart options)
    found begins
  simp only [Cursor.readRadix, Cursor.read, here, same, found]

/-- Spans can be cut out, and a literal of one radix looks two code points ahead at most. -/
theorem readings_self_delimiting (options : Options)
    : ((∀ radix, SelfDelimiting fun cursor => cursor.readRadix options radix)
        ∧ (SelfDelimiting fun cursor => cursor.readLiteral options)
        ∧ (SelfDelimiting fun cursor => cursor.readNumber options)
        ∧ SelfDelimiting fun cursor => cursor.readSignedNumber options)
      ∧ ∀ radix, LooksAhead 2 fun cursor => cursor.readRadix options radix :=
  ⟨⟨selfDelimiting_readRadix options, selfDelimiting_readLiteral options,
    (selfDelimiting_readLiteral options).map Prod.snd, selfDelimiting_readSignedNumber options⟩,
    looksAhead_readRadix options⟩

/-- A marker that begins no exponent is looked at and can be cut off. -/
theorem readings_self_delimiting_marker_alone
    : (((Cursor.ofText "1ex".toList 0).upTo 1).readLiteral {}).outcome
      = .ok (.complete 0 1 (.decimal, Decimal.toBinary64 ⟨1, 0⟩ false)) :=
  (readings_self_delimiting {}).1.2.1 (.ofText "1ex".toList 0) _ 1 (by decide +kernel) rfl

end Reading

end Numeral
