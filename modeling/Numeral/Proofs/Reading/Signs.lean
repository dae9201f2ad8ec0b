import Numeral.Proofs.Literal.Parsing
import Numeral.Proofs.Literal.Unsigned
import Numeral.Proofs.Reading.Dispatch

/-! What is read is a number, with the sign that stands before it. However long a literal is, and
whether it is complete or malformed, its value is zero, positive or infinite; and what is parsed for
it is parsed without fail.
-/

namespace Numeral

open Binary64 (Unsigned)

variable {α β : Type}

/-- The reading gives an outcome, whose value has the property if it has one. -/
def Reading.Gives (reading : Reading α) (property : α → Prop) : Prop :=
  ∃ outcome, reading.outcome = .ok outcome ∧ ∀ value ∈ outcome.value?, property value

theorem Reading.Gives.map {reading : Reading α} {f : α → β} {property : β → Prop}
    (gives : reading.Gives fun value => property (f value))
    : (reading.map f).Gives property := by
  obtain ⟨outcome, found, valued⟩ := gives
  refine ⟨outcome.map f, by rw [Reading.map, found]; rfl, ?_⟩
  cases outcome with
  | absent start => simp [Outcome.map, Outcome.value?]
  | complete start stop value => simpa [Outcome.map, Outcome.value?] using valued
  | malformed start stop value fault => simpa [Outcome.map, Outcome.value?] using valued

namespace Cursor

variable {options : Options}

theorem gives_of_ofLexeme {start : Nat} {reading : Reading α} {lexeme? : Option (Lexeme α)}
    {property : α → Prop} (found : reading.outcome = .ok (.ofLexeme start lexeme?))
    (valued : ∀ lexeme ∈ lexeme?, property lexeme.value)
    : reading.Gives property := by
  refine ⟨_, found, ?_⟩
  rw [Outcome.value?_ofLexeme]
  intro value member
  obtain ⟨lexeme, present, rfl⟩ := Option.map_eq_some_iff.mp member
  exact valued lexeme present

/-- What is read at the cursor, complete or malformed, is a number: without a sign it is zero,
positive or infinite, and with one it is negative if the sign is a minus. Whatever is parsed for a
literal at the cursor or behind it is in the accepted form, and the parser gives what it is taken
for.
-/
structure ReadsNumbers (cursor : Cursor) (options : Options) : Prop where
  radix : ∀ radix, (cursor.readRadix options radix).Gives Unsigned
  literal : (cursor.readLiteral options).Gives fun (_, value) => value.Unsigned
  number : (cursor.readNumber options).Gives Unsigned
  signedNumber
    : (cursor.readSignedNumber options).Gives fun value =>
        value.isNaN = false ∧ (value.negative = true ↔ cursor.peek? = some '-')
  parsed
    : ∀ count radix handed value,
        Radix.Hands options (cursor.unread.drop count) radix handed value
        → (∃ negative q, Decimal.Accepts handed negative q) ∧ Binary64.parse? handed = some value

theorem unsigned_readLiteral (cursor : Cursor) (running : options.haltOnMalformed = false)
    : (cursor.readLiteral options).Gives fun (_, value) => value.Unsigned :=
  gives_of_ofLexeme (cursor.outcome_readLiteral running) fun _ => Options.unsigned_literal?

theorem sign_readSignedNumber (cursor : Cursor) (running : options.haltOnMalformed = false)
    : (cursor.readSignedNumber options).Gives fun value =>
        value.isNaN = false ∧ (value.negative = true ↔ cursor.peek? = some '-') := by
  rw [peek?_eq_head?_unread]
  exact gives_of_ofLexeme (cursor.outcome_readSignedNumber running) fun _ =>
    Options.sign_signedNumber?

/-- No literal is read as what is not a number, or with a wrong sign. -/
theorem reads_numbers (cursor : Cursor) (options : Options)
    (running : options.haltOnMalformed = false)
    : cursor.ReadsNumbers options where
  radix _ := gives_of_ofLexeme rfl fun _ => Radix.unsigned_literal?
  literal := cursor.unsigned_readLiteral running
  number := (cursor.unsigned_readLiteral running).map
  signedNumber := cursor.sign_readSignedNumber running
  parsed _ _ _ _ hands := hands.parsed

/-- A number beyond the largest one, behind a minus sign. -/
theorem reads_numbers_overflow
    : ∃ value,
        ((ofText "2-1e400".toList 1).readSignedNumber {}).outcome = .ok (.complete 1 7 value)
        ∧ value.isNaN = false
        ∧ value.negative = true := by
  have found : ((ofText "2-1e400".toList 1).readSignedNumber {}).outcome
      = .ok (.complete 1 7 (Binary64.infinity true)) := by
    decide +kernel
  obtain ⟨outcome, same, valued⟩ :=
    (reads_numbers (ofText "2-1e400".toList 1) {} rfl).signedNumber
  obtain rfl := Except.ok.inj (found.symm.trans same)
  obtain ⟨number, sign⟩ := valued _ rfl
  exact ⟨_, found, number, sign.mpr rfl⟩

end Cursor

end Numeral
