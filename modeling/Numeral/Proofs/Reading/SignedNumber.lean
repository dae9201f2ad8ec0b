import Numeral.Proofs.Binary64.Negation
import Numeral.Proofs.Reading.Watching

/-! A number behind a sign is the number, one code point longer and with its sign bit toggled by a
minus. There is one sign at most, and without it a number with a sign is read as one without.
-/

namespace Numeral

/-- The outcome of a number with a sign put in before it: of the same kind, and one code point
longer. A minus changes the sign of the value, of a partial one too.
-/
def Outcome.behindSign (sign : Sign) : Outcome Binary64 → Outcome Binary64
  | complete start stop value =>
      .complete start (stop + 1) (Sign.apply Binary64.neg (some sign) value)
  | absent start => .absent start
  | malformed start stop value fault =>
      .malformed start (stop + 1) (Sign.apply Binary64.neg (some sign) value) fault

/-- The place where `before` ends and `text` begins. -/
def Cursor.joint (before text : List Char) : Cursor :=
  ofText (before ++ text) before.length

/-- What is read of `text` behind a sign and without one, where `before` ends. The outcome behind a
sign is told by the one without, and the cursor is at its end, or where it was if there is none.
-/
structure Cursor.ReadsBehindSign (options : Options) (before text : List Char) : Prop where
  signed
    : ∀ sign,
        ∃ outcome,
          ((joint before text).readNumber options).outcome = .ok outcome
          ∧ ((joint before (Sign.written (some sign) ++ text)).readSignedNumber options).outcome
            = .ok (outcome.behindSign sign)
          ∧ ((joint before (Sign.written (some sign) ++ text)).readSignedNumber
              options).cursor.offset
            = (outcome.behindSign sign).stop?.getD before.length
  minus
    : ∀ x : Binary64,
        (Sign.apply Binary64.neg (some .minus) x).toBits = x.toBits ^^^ 0x8000000000000000
  plus : ∀ x : Binary64, Sign.apply Binary64.neg (some .plus) x = x
  signedTwice
    : text.head? = some '+' ∨ text.head? = some '-'
      → ∀ sign,
          ((joint before (Sign.written (some sign) ++ text)).readSignedNumber options).outcome
            = .ok (.absent before.length)
          ∧ ((joint before (Sign.written (some sign) ++ text)).readSignedNumber
              options).cursor.offset
            = before.length
  unsigned
    : ¬ (text.head? = some '+' ∨ text.head? = some '-')
      → (joint before text).readSignedNumber options = (joint before text).readNumber options

theorem Outcome.ofLexeme_behindSign (sign : Sign) (start : Nat)
    (number? : Option (Lexeme Binary64))
    : ofLexeme start
          (number?.map fun number =>
            (number.map (Sign.apply Binary64.neg (some sign))).extend 1)
        = (ofLexeme start number?).behindSign sign := by
  have later (length : Nat) : start + (1 + length) = start + length + 1 := by omega
  rcases number? with _ | ⟨length, value, _ | fault⟩
  · rfl
  · exact congrArg (complete start · _) (later length)
  · exact congrArg (malformed start · _ fault) (later length)

namespace Options

/-- Behind a sign stands a number, and no other sign is read before it. -/
theorem signedNumber?_written_append (options : Options) (sign : Sign) (text : List Char)
    : options.signedNumber? (Sign.written (some sign) ++ text)
      = (options.number? text).map fun number =>
          (number.map (Sign.apply Binary64.neg (some sign))).extend 1 := by
  have leading : Sign.leading? (Sign.written (some sign) ++ text) = some sign := by
    cases sign <;> rfl
  rw [signedNumber?, leading, Sign.drop_length_written]
  rfl

/-- A sign is no digit. -/
theorem number?_of_sign (options : Options) {text : List Char}
    (signed : text.head? = some '+' ∨ text.head? = some '-')
    : options.number? text = none := by
  rw [← Option.not_isSome_iff_eq_none, number?_isSome_iff]
  rintro ⟨c, first, digit⟩
  rcases signed with plus | minus
  · obtain rfl := Option.some.inj (plus.symm.trans first)
    contradiction
  · obtain rfl := Option.some.inj (minus.symm.trans first)
    contradiction

end Options

namespace Cursor

variable {options : Options}

theorem offset_joint (before text : List Char)
    : (joint before text).offset = before.length := by
  have inside : before.length ≤ (before ++ text).length := by
    rw [List.length_append]
    exact Nat.le_add_right ..
  exact Nat.min_eq_left inside

theorem unread_joint (before text : List Char)
    : (joint before text).unread = text := by
  rw [unread, offset_joint]
  exact List.drop_left

/-- Without a sign there is nothing to skip and nothing to change. -/
theorem readSignedNumber_of_unsigned (cursor : Cursor)
    (unsigned : ¬ (cursor.peek? = some '+' ∨ cursor.peek? = some '-'))
    : cursor.readSignedNumber options = cursor.readNumber options := by
  have skipped : cursor.signLength = 0 := if_neg unsigned
  have none : Sign.leading? cursor.unread = none := by
    have length := cursor.length_leading?_unread
    rw [skipped] at length
    cases leading : Sign.leading? cursor.unread with
    | none => rfl
    | some sign =>
        rw [leading] at length
        contradiction
  rw [readSignedNumber_eq_watchAhead, readNumber_eq_watchAhead, skipped, none]
  rfl

theorem outcome_behindSign (sign : Sign) (before text : List Char)
    (running : options.haltOnMalformed = false)
    : ((joint before (Sign.written (some sign) ++ text)).readSignedNumber options).outcome
      = .ok ((Outcome.ofLexeme before.length (options.number? text)).behindSign sign) := by
  rw [outcome_readSignedNumber _ running, offset_joint, unread_joint,
    Options.signedNumber?_written_append, Outcome.ofLexeme_behindSign]

theorem offset_behindSign (sign : Sign) (before text : List Char)
    (running : options.haltOnMalformed = false) {outcome : Outcome Binary64}
    (found
      : ((joint before (Sign.written (some sign) ++ text)).readSignedNumber options).outcome
        = .ok outcome)
    : ((joint before (Sign.written (some sign) ++ text)).readSignedNumber options).cursor.offset
      = outcome.stop?.getD before.length := by
  rw [(readSignedNumber_fitsAt _ running).offset_eq found, offset_joint]

/-- A number is read behind a sign as it is read without one, wherever that is. -/
theorem reads_behind_sign (options : Options) (before text : List Char)
    (running : options.haltOnMalformed = false)
    : ReadsBehindSign options before text where
  signed := by
    intro sign
    have found := outcome_behindSign sign before text running
    refine ⟨_, ?_, found, offset_behindSign sign before text running found⟩
    rw [outcome_readNumber _ running, offset_joint, unread_joint]
  minus := Binary64.toBits_neg
  plus _ := rfl
  signedTwice := by
    intro second sign
    have found := outcome_behindSign sign before text running
    rw [options.number?_of_sign second] at found
    exact ⟨found, offset_behindSign sign before text running found⟩
  unsigned := by
    intro unsigned
    apply readSignedNumber_of_unsigned
    rwa [peek?_eq_head?_unread, unread_joint]

/-- A malformed literal behind a minus sign, with something before it. -/
theorem reads_behind_sign_malformed
    : ((joint "2".toList "-3e+".toList).readSignedNumber {}).outcome
      = .ok (.malformed 1 5 (Decimal.toBinary64 ⟨3, 0⟩ false).neg .exponentExpected) := by
  have number : ((joint "2".toList "3e+".toList).readNumber {}).outcome
      = .ok (.malformed 1 4 (Decimal.toBinary64 ⟨3, 0⟩ false) .exponentExpected) := by
    decide +kernel
  obtain ⟨outcome, found, signed, -⟩ :=
    (reads_behind_sign {} "2".toList "3e+".toList rfl).signed .minus
  obtain rfl := Except.ok.inj (number.symm.trans found)
  exact signed

end Cursor

end Numeral
