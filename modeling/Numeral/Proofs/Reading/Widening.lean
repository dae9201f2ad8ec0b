import Numeral.Proofs.Literal.Widening
import Numeral.Proofs.Reading.Dispatch

/-! Reading under options that accept more. A number is found at the same places, and none ends
earlier. What was complete may be malformed then, if the text that it goes on with is.
-/

namespace Numeral

variable {α : Type}

/-- The second outcome is what may come of reading in place of the first one where more is accepted:
there is nothing where there was nothing, what there was ends no earlier, and what was malformed
stays as it is.
-/
structure Outcome.WidensTo (outcome wider : Outcome α) : Prop where
  start_eq : wider.start = outcome.start
  absent_iff : outcome.isAbsent = true ↔ wider.isAbsent = true
  stop_le : ∀ stop ∈ outcome.stop?, ∃ further ∈ wider.stop?, stop ≤ further
  kept : outcome.isMalformed = true → wider = outcome

/-- Options that accept more widen what is read. What was complete then stays so or does not:
`spoiled` is about a text where it does not.
-/
structure Reading.Widens (read : Options → Cursor → Reading α) : Prop where
  widened
    : ∀ narrow wide cursor,
        narrow.Within wide
        → narrow.haltOnMalformed = false
        → wide.haltOnMalformed = false
        → ∃ outcome wider,
            (read narrow cursor).outcome = .ok outcome
            ∧ (read wide cursor).outcome = .ok wider
            ∧ outcome.WidensTo wider
  spoiled
    : ∃ narrow wide cursor outcome wider,
        narrow.Within wide
        ∧ narrow.haltOnMalformed = false
        ∧ wide.haltOnMalformed = false
        ∧ (read narrow cursor).outcome = .ok outcome
        ∧ (read wide cursor).outcome = .ok wider
        ∧ outcome.isComplete = true
        ∧ wider.isMalformed = true

theorem Outcome.widensTo_self (outcome : Outcome α)
    : outcome.WidensTo outcome :=
  ⟨rfl, Iff.rfl, fun stop stops => ⟨stop, stops, Nat.le_refl stop⟩, fun _ => rfl⟩

/-- Lexemes that are found further make outcomes that end further. -/
theorem Outcome.widensTo_ofLexeme {narrow? wide? : Option (Lexeme α)}
    (related : Option.Rel Lexeme.WidensTo narrow? wide?) (start : Nat)
    : (ofLexeme start narrow?).WidensTo (ofLexeme start wide?) := by
  cases related with
  | none => exact widensTo_self _
  | @some lexeme wider widens =>
      cases widens with
      | same => exact widensTo_self _
      | further sound reaches =>
          rcases lexeme with ⟨length, value, fault⟩
          dsimp only at sound reaches
          subst sound
          have further := Nat.add_le_add_left reaches start
          rcases wider with ⟨length, value, _ | fault⟩
          all_goals
            refine ⟨rfl, Iff.rfl, ?_, fun malformed => nomatch malformed⟩
            rintro _ ⟨⟩
            exact ⟨_, rfl, further⟩

namespace Reading

/-- A reading of what a finder finds widens if the finder does and one text is spoiled. -/
theorem Widens.of_finds {read : Options → Cursor → Reading α}
    {find? : Options → List Char → Option (Lexeme α)}
    (finds
      : ∀ {options : Options} (cursor : Cursor),
          options.haltOnMalformed = false
          → (read options cursor).outcome
            = .ok (.ofLexeme cursor.offset (find? options cursor.unread)))
    (widen
      : ∀ {narrow wide : Options},
          narrow.Within wide
          → ∀ text, Option.Rel Lexeme.WidensTo (find? narrow text) (find? wide text))
    {cursor : Cursor} {stop further : Nat} {value longer : α} {fault : Fault}
    (complete
      : (read { digitSeparators := false } cursor).outcome = .ok (cursor.complete stop value))
    (malformed : (read {} cursor).outcome = .ok (cursor.malformed further longer fault))
    : Widens read where
  widened _ _ cursor within running runningWide :=
    ⟨_, _, finds cursor running, finds cursor runningWide,
      Outcome.widensTo_ofLexeme (widen within cursor.unread) cursor.offset⟩
  spoiled :=
    ⟨{ digitSeparators := false }, {}, cursor, _, _, ⟨id, id, nofun⟩, rfl, rfl, complete, malformed,
      rfl, rfl⟩

/-- Options that accept more widen what is read, without a sign and with one. The text that is
spoiled is a whole part that ends at a separator, with a fraction behind it that may have none.
-/
theorem options_widen
    : (Widens fun options cursor => cursor.readNumber options)
      ∧ Widens fun options cursor => cursor.readSignedNumber options := by
  have complete
      : ((Cursor.ofText "1_0.5_".toList 0).readNumber { digitSeparators := false }).outcome
        = .ok (.complete 0 1 (Decimal.toBinary64 ⟨1, 0⟩ false)) := by
    decide +kernel
  have malformed : ((Cursor.ofText "1_0.5_".toList 0).readNumber {}).outcome
      = .ok (.malformed 0 6 (Decimal.toBinary64 ⟨105, -1⟩ false) .decimalNumberExpected) := by
    decide +kernel
  have signedComplete
      : ((Cursor.ofText "-1_0.5_".toList 0).readSignedNumber { digitSeparators := false }).outcome
        = .ok (.complete 0 2 (Decimal.toBinary64 ⟨1, 0⟩ true)) := by
    decide +kernel
  have signedMalformed : ((Cursor.ofText "-1_0.5_".toList 0).readSignedNumber {}).outcome
      = .ok (.malformed 0 7 (Decimal.toBinary64 ⟨105, -1⟩ true) .decimalNumberExpected) := by
    decide +kernel
  exact ⟨.of_finds Cursor.outcome_readNumber Options.number?_widen complete malformed,
    .of_finds Cursor.outcome_readSignedNumber Options.signedNumber?_widen signedComplete
      signedMalformed⟩

/-- A lead whose digits stand behind a separator. -/
theorem options_widen_lead
    : ∃ wider,
        ((Cursor.ofText "0x_f.8".toList 0).readNumber {}).outcome = .ok wider
        ∧ Outcome.WidensTo (.complete 0 1 Binary64.zero) wider := by
  have complete
      : ((Cursor.ofText "0x_f.8".toList 0).readNumber { digitSeparators := false }).outcome
        = .ok (.complete 0 1 Binary64.zero) := by
    decide +kernel
  obtain ⟨outcome, wider, found, foundWide, widens⟩ :=
    options_widen.1.widened { digitSeparators := false } {} (Cursor.ofText "0x_f.8".toList 0)
      ⟨id, id, nofun⟩ rfl rfl
  obtain rfl := Except.ok.inj (complete.symm.trans found)
  exact ⟨wider, foundWide, widens⟩

end Reading

end Numeral
