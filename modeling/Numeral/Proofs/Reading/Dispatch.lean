import Numeral.Proofs.Literal.Beginning
import Numeral.Proofs.Reading.Placement

/-! What comes of reading a literal, told from the characters at the cursor. They select one
radix, and what is read is what that radix reads on its own, complete or malformed.
-/

namespace Numeral

variable {α β : Type}

theorem Outcome.ofLexeme_map (start : Nat) (f : α → β) (lexeme? : Option (Lexeme α))
    : ofLexeme start (lexeme?.map (·.map f)) = (ofLexeme start lexeme?).map f := by
  rcases lexeme? with _ | ⟨length, value, _ | fault⟩ <;> rfl

theorem Outcome.ofLexeme_eq_absent_iff {start : Nat} {lexeme? : Option (Lexeme α)}
    : ofLexeme start lexeme? = .absent start ↔ lexeme? = none := by
  rcases lexeme? with _ | ⟨length, value, _ | fault⟩ <;> simp [ofLexeme]

theorem Outcome.value?_ofLexeme (start : Nat) (lexeme? : Option (Lexeme α))
    : (ofLexeme start lexeme?).value? = lexeme?.map (·.value) := by
  rcases lexeme? with _ | ⟨length, value, _ | fault⟩ <;> rfl

namespace Cursor

/-- What is read at the cursor is decided by the characters there. `absent_iff` and `radix_iff`
say which radix is found, `selected` that it is read as on its own, and the others that the
choice leaves nothing to the order of trying.
-/
structure Dispatches (cursor : Cursor) (options : Options) : Prop where
  absent_iff
    : (cursor.readLiteral options).outcome = .ok cursor.absent
      ↔ ¬ ∃ c ∈ cursor.peek?, c.isDigit = true
  radix_iff
    : ∀ radix,
        (∃ outcome value,
          (cursor.readLiteral options).outcome = .ok outcome
          ∧ outcome.value? = some (radix, value))
        ↔ (∃ c ∈ cursor.peek?, c.isDigit = true) ∧ options.Selects cursor.unread radix
  selected
    : ∀ radix,
        options.Selects cursor.unread radix
        → (cursor.readLiteral options).outcome
            = ((cursor.readRadix options radix).map (radix, ·)).outcome
          ∧ (cursor.readLiteral options).cursor = (cursor.readRadix options radix).cursor
  exclusive
    : (cursor.readRadix options .binary).outcome = .ok cursor.absent
      ∨ (cursor.readRadix options .hexadecimal).outcome = .ok cursor.absent
  reverse
    : (cursor.readLiteral options).outcome
      = .ok (.ofLexeme cursor.offset
          (options.firstLiteral? [.hexadecimal, .binary, .decimal] cursor.unread))
  unannounced
    : ∀ radix : Radix,
        radix.lead ≠ []
        → radix.lead <+: cursor.unread
        → options.Selects cursor.unread .decimal
        → (cursor.readLiteral options).outcome
          = .ok (cursor.complete (cursor.offset + 1) (.decimal, .zero))

variable {options : Options}

theorem outcome_readLiteral (cursor : Cursor) (running : options.haltOnMalformed = false)
    : (cursor.readLiteral options).outcome
      = .ok (.ofLexeme cursor.offset (options.literal? cursor.unread)) := by
  rw [readLiteral, watch_of_running _ running]

theorem outcome_readNumber (cursor : Cursor) (running : options.haltOnMalformed = false)
    : (cursor.readNumber options).outcome
      = .ok (.ofLexeme cursor.offset (options.number? cursor.unread)) := by
  rw [readNumber, Reading.map, cursor.outcome_readLiteral running, Options.number?,
    Outcome.ofLexeme_map]
  rfl

theorem outcome_readSignedNumber (cursor : Cursor) (running : options.haltOnMalformed = false)
    : (cursor.readSignedNumber options).outcome
      = .ok (.ofLexeme cursor.offset (options.signedNumber? cursor.unread)) := by
  rw [readSignedNumber, watch_of_running _ running]

theorem literal?_eq_none_iff_peek? (cursor : Cursor) (options : Options)
    : options.literal? cursor.unread = none ↔ ¬ ∃ c ∈ cursor.peek?, c.isDigit = true := by
  rw [peek?_eq_head?_unread, ← Options.literal?_isSome_iff options, Option.not_isSome_iff_eq_none]

/-- The radix of a literal is the one that is selected. -/
theorem value_literal?_iff (cursor : Cursor) (options : Options) (radix : Radix)
    : (∃ value, (options.literal? cursor.unread).map (·.value) = some (radix, value))
      ↔ (∃ c ∈ cursor.peek?, c.isDigit = true) ∧ options.Selects cursor.unread radix := by
  constructor
  · rintro ⟨value, found⟩
    obtain ⟨actual, selects⟩ := options.exists_selects cursor.unread
    obtain ⟨lexeme, literal, same⟩ := Option.map_eq_some_iff.mp found
    have begins := mt (cursor.literal?_eq_none_iff_peek? options).mpr
      (by rw [literal]; exact Option.some_ne_none lexeme)
    rw [Options.literal?_of_selects selects] at literal
    obtain ⟨inner, -, rfl⟩ := Option.map_eq_some_iff.mp literal
    obtain rfl : actual = radix := congrArg Prod.fst same
    exact ⟨not_not.mp begins, selects⟩
  · rintro ⟨digit, selects⟩
    have present := mt (cursor.literal?_eq_none_iff_peek? options).mp (not_not.mpr digit)
    obtain ⟨lexeme, literal⟩ := Option.ne_none_iff_exists'.mp present
    rw [Options.literal?_of_selects selects] at literal ⊢
    obtain ⟨inner, found, rfl⟩ := Option.map_eq_some_iff.mp literal
    exact ⟨inner.value, by rw [found]; rfl⟩

/-- Only one of the radices with a lead finds a literal. -/
theorem readRadix_exclusive (cursor : Cursor) (options : Options)
    : (cursor.readRadix options .binary).outcome = .ok cursor.absent
      ∨ (cursor.readRadix options .hexadecimal).outcome = .ok cursor.absent := by
  have silent {radix : Radix}
      (unannounced : ¬ radix.Announced options.digitSeparators cursor.unread)
      : (cursor.readRadix options radix).outcome = .ok cursor.absent := by
    rw [← Radix.literal?_isSome_iff, Option.not_isSome_iff_eq_none] at unannounced
    rw [readRadix, read, unannounced]
    rfl
  rcases not_and_or.mp (Radix.not_announced_both options.digitSeparators cursor.unread)
    with binary | hexadecimal
  · exact .inl (silent binary)
  · exact .inr (silent hexadecimal)

/-- What is read is decided by the characters at the cursor, in whatever text. -/
theorem readLiteral_dispatches (cursor : Cursor) (running : options.haltOnMalformed = false)
    : cursor.Dispatches options where
  absent_iff := by
    rw [cursor.outcome_readLiteral running, Except.ok.injEq, absent,
      Outcome.ofLexeme_eq_absent_iff, literal?_eq_none_iff_peek?]
  radix_iff := by
    intro radix
    rw [← cursor.value_literal?_iff options radix, cursor.outcome_readLiteral running]
    simp [Outcome.value?_ofLexeme]
  selected := by
    intro radix selects
    have same := Options.literal?_of_selects selects
    rw [readLiteral, watch_of_running _ running, same]
    refine ⟨congrArg Except.ok (Outcome.ofLexeme_map ..), ?_⟩
    cases found : radix.literal? options cursor.unread <;> simp [readRadix, read, found, behind]
  exclusive := cursor.readRadix_exclusive options
  reverse := by
    rw [cursor.outcome_readLiteral running, options.firstLiteral?_reverse]
  unannounced := by
    intro radix led begins selects
    have lone := Radix.decimal_literal?_of_lead options led begins
    rw [cursor.outcome_readLiteral running, Options.literal?_of_selects selects, lone]
    rfl

/-- A lead without digits behind it. -/
theorem readLiteral_dispatches_lead_alone
    : (ofText "7 0x_g".toList 2).Dispatches {} :=
  (ofText "7 0x_g".toList 2).readLiteral_dispatches rfl

end Cursor

end Numeral
