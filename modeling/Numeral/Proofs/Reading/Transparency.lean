import Mathlib.Logic.Relation
import Numeral.Proofs.Literal.SingleRounding
import Numeral.Proofs.Literal.Transparency
import Numeral.Proofs.Reading.Dispatch

/-! Separators among digits cannot be read off an outcome but by its length. That is shown for one
separator put in, and carried to any number of them put in and taken out.
-/

namespace Numeral

variable {α β : Type}

-----------------------------------------------------------------------------------------
-- Longer outcomes
-----------------------------------------------------------------------------------------

/-- The outcome with its end moved on by `count`, if it has one. -/
def Outcome.stretch (outcome : Outcome α) (count : Nat) : Outcome α :=
  match outcome with
  | complete start stop value => .complete start (stop + count) value
  | absent start => .absent start
  | malformed start stop value fault => .malformed start (stop + count) value fault

theorem Outcome.stretch_stretch (outcome : Outcome α) (first second : Nat)
    : (outcome.stretch first).stretch second = outcome.stretch (first + second) := by
  cases outcome <;> simp only [stretch, Nat.add_assoc]

theorem Outcome.stretch_injective {outcome other : Outcome α} (count : Nat)
    (same : outcome.stretch count = other.stretch count)
    : outcome = other := by
  cases outcome <;> cases other <;> simp_all [stretch]

theorem Outcome.ofLexeme_extend (start : Nat) (lexeme? : Option (Lexeme α)) (count : Nat)
    : ofLexeme start (lexeme?.map (·.extend count)) = (ofLexeme start lexeme?).stretch count := by
  rcases lexeme? with _ | ⟨length, value, _ | fault⟩
  · rfl
  all_goals simp only [Option.map_some, Lexeme.extend, ofLexeme, stretch, Nat.add_comm count,
    Nat.add_assoc]

/-- What the reading finds is the same on both sides of a change but for its end: `once` for one
change that puts a character in, and `repeated` for many that put characters in or take them out
again, where the ends differ as the lengths of the texts do.
-/
structure Reading.Transparent (read : Cursor → Reading α) (change : Cursor → Cursor → Prop)
    : Prop where
  once
    : ∀ cursor other,
        change cursor other
        → ∃ outcome,
            (read cursor).outcome = .ok outcome
            ∧ (read other).outcome = .ok (outcome.stretch 1)
  repeated
    : ∀ cursor other,
        Relation.EqvGen change cursor other
        → ∃ before after,
            (read cursor).outcome = .ok before
            ∧ (read other).outcome = .ok after
            ∧ after.stretch cursor.length = before.stretch other.length

/-- It is enough to look at one change: by induction on how the changes follow each other. -/
theorem Reading.Transparent.of_once {read : Cursor → Reading α} {change : Cursor → Cursor → Prop}
    {found : Cursor → Outcome α} (runs : ∀ cursor, (read cursor).outcome = .ok (found cursor))
    (longer : ∀ cursor other, change cursor other → other.length = cursor.length + 1)
    (once : ∀ cursor other, change cursor other → found other = (found cursor).stretch 1)
    : Transparent read change where
  once := by
    intro cursor other changed
    refine ⟨found cursor, runs cursor, ?_⟩
    rw [runs other, once cursor other changed]
  repeated := by
    intro cursor other changes
    refine ⟨found cursor, found other, runs cursor, runs other, ?_⟩
    induction changes with
    | rel first second changed =>
        rw [once first second changed, longer first second changed, Outcome.stretch_stretch,
          Nat.add_comm]
    | refl only => rfl
    | symm first second _ ih => exact ih.symm
    | trans first second third _ _ early late =>
        apply Outcome.stretch_injective second.length
        calc ((found third).stretch first.length).stretch second.length
          _ = ((found third).stretch second.length).stretch first.length := by
            rw [Outcome.stretch_stretch, Outcome.stretch_stretch, Nat.add_comm]
          _ = ((found second).stretch first.length).stretch third.length := by
            rw [late, Outcome.stretch_stretch, Outcome.stretch_stretch, Nat.add_comm]
          _ = ((found first).stretch third.length).stretch second.length := by
            rw [early, Outcome.stretch_stretch, Outcome.stretch_stretch, Nat.add_comm]

-----------------------------------------------------------------------------------------
-- One more separator
-----------------------------------------------------------------------------------------

namespace Cursor

/-- The same place in the text with a separator put in at `index`, not before the place. -/
def insertSeparator (cursor : Cursor) (index : Nat) : Cursor :=
  ofText (cursor.text.take index ++ '_' :: cursor.text.drop index) cursor.offset

/-- The second text is the first one with a separator put in among digits of the radix, at a place
that is told by the characters from the cursor up to there.
-/
def Separates (radix : Radix) (cursor other : Cursor) : Prop :=
  ∃ index,
    index ≤ cursor.length
    ∧ radix.TakesSeparator (cursor.between cursor.offset index)
    ∧ other = cursor.insertSeparator index

/-- The literal that is read at the cursor has the radix. -/
def HasRadix (cursor : Cursor) (options : Options) (radix : Radix) : Prop :=
  ∃ outcome value,
    (cursor.readLiteral options).outcome = .ok outcome ∧ outcome.value? = some (radix, value)

/-- A separator is put in among digits of the radix that the literal has. -/
def SeparatesLiteral (options : Options) (cursor other : Cursor) : Prop :=
  ∃ radix, cursor.HasRadix options radix ∧ Separates radix cursor other

variable {cursor other : Cursor} {radix : Radix} {options : Options}

/-- A separator is put in behind a character at least. -/
theorem ne_nil_of_takesSeparator {front : List Char} (takes : radix.TakesSeparator front)
    : front ≠ [] := by
  cases takes with
  | whole inside begun =>
      cases radix with
      | binary | hexadecimal => exact List.cons_ne_nil _ _
      | decimal =>
          obtain ⟨c, first, -⟩ := begun rfl
          rintro rfl
          contradiction
  | fraction _ _ _ _ => simp

theorem Separates.length (separates : Separates radix cursor other)
    : other.length = cursor.length + 1 := by
  obtain ⟨index, inside, -, rfl⟩ := separates
  simp only [Cursor.length, insertSeparator, ofText, List.length_append, List.length_cons,
    List.length_take, List.length_drop] at inside ⊢
  omega

/-- Where the unread texts differ: one separator is put in behind what lies before it. -/
theorem Separates.unread (separates : Separates radix cursor other)
    : ∃ front rest,
        radix.TakesSeparator front
        ∧ cursor.unread = front ++ rest
        ∧ other.unread = front ++ '_' :: rest
        ∧ other.offset = cursor.offset := by
  have longer := separates.length
  obtain ⟨index, inside, takes, rfl⟩ := separates
  have here := cursor.offset_le_length
  have behind : cursor.offset < index := by
    by_contra before
    apply ne_nil_of_takesSeparator takes
    rw [between, Nat.sub_eq_zero_of_le (Nat.le_of_not_lt before), List.take_zero]
  have place : (cursor.insertSeparator index).offset = cursor.offset := by
    have reached : (cursor.insertSeparator index).offset
        = min cursor.offset (cursor.insertSeparator index).length := rfl
    omega
  refine ⟨_, cursor.text.drop index, takes, ?_, ?_, place⟩
  · rw [between, Cursor.unread]
    conv => rhs; rhs; rw [← Nat.add_sub_cancel' (Nat.le_of_lt behind), ← List.drop_drop]
    rw [List.take_append_drop]
  · have enough : cursor.offset ≤ (cursor.text.take index).length := by
      rw [List.length_take_of_le inside]
      exact Nat.le_of_lt behind
    rw [Cursor.unread, place, insertSeparator, ofText, List.drop_append_of_le_length enough,
      List.drop_take, between]

end Cursor

namespace Reading

theorem transparent_readRadix {options : Options} (separators : options.digitSeparators = true)
    (radix : Radix)
    : Transparent (fun cursor => cursor.readRadix options radix) (Cursor.Separates radix) := by
  refine .of_once (fun cursor => rfl) (fun cursor other => Cursor.Separates.length) ?_
  intro cursor other separates
  obtain ⟨front, rest, takes, unread, longer, place⟩ := separates.unread
  rw [place, unread, longer, takes.literal? separators, Outcome.ofLexeme_extend]

theorem transparent_readLiteral {options : Options} (separators : options.digitSeparators = true)
    (running : options.haltOnMalformed = false)
    : Transparent (fun cursor => cursor.readLiteral options)
        (Cursor.SeparatesLiteral options) := by
  refine .of_once (fun cursor => cursor.outcome_readLiteral running)
    (fun cursor other separates => separates.choose_spec.2.length) ?_
  intro cursor other separatesLiteral
  obtain ⟨radix, ⟨outcome, value, found, valued⟩, separates⟩ := separatesLiteral
  obtain ⟨front, rest, takes, unread, longer, place⟩ := separates.unread
  rw [cursor.outcome_readLiteral running] at found
  obtain rfl := Except.ok.inj found
  rw [Outcome.value?_ofLexeme] at valued
  have selects := ((cursor.value_literal?_iff options radix).mp ⟨value, valued⟩).2
  rw [unread] at selects
  rw [place, unread, longer, Options.literal?_append_underscore selects separators takes,
    Outcome.ofLexeme_extend]

/-- Where separators are allowed they change nothing but how far a literal reaches: put in among
the digits of one radix for the literals of that radix, and among the digits of the radix that is
found for whichever literal is found.
-/
theorem separators_transparent (options : Options) (separators : options.digitSeparators = true)
    (running : options.haltOnMalformed = false)
    : (∀ radix,
        Transparent (fun cursor => cursor.readRadix options radix) (Cursor.Separates radix))
      ∧ Transparent (fun cursor => cursor.readLiteral options)
          (Cursor.SeparatesLiteral options) :=
  ⟨transparent_readRadix separators, transparent_readLiteral separators running⟩

/-- A separator put in behind the point of a binary literal. -/
theorem separators_transparent_point
    : ((Cursor.ofText "0b1._1p1".toList 0).readLiteral {}).outcome
      = .ok (.complete 0 8 (.binary, Decimal.toBinary64 ⟨3, 0⟩ false)) := by
  have found : ((Cursor.ofText "0b1.1p1".toList 0).readLiteral {}).outcome
      = .ok (.complete 0 7 (.binary, Decimal.toBinary64 ⟨3, 0⟩ false)) := by
    decide +kernel
  have takes : Radix.binary.TakesSeparator (Radix.binary.lead ++ (['1'] ++ '.' :: [])) :=
    .fraction rfl (by simp [Radix.HasDigit]) ⟨'1', by simp, .inr rfl⟩ (by simp)
  have separates : Cursor.SeparatesLiteral {} (.ofText "0b1.1p1".toList 0)
      (.ofText "0b1._1p1".toList 0) :=
    ⟨.binary, ⟨_, _, found, rfl⟩, 4, by decide, takes, rfl⟩
  obtain ⟨outcome, same, moved⟩ := (separators_transparent {} rfl rfl).2.once _ _ separates
  obtain rfl := Except.ok.inj (found.symm.trans same)
  exact moved

end Reading

end Numeral
