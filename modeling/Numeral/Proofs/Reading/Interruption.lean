import Numeral.Proofs.Literal.Interruption
import Numeral.Proofs.Literal.SingleRounding
import Numeral.Proofs.Reading.Delimiting
import Numeral.Proofs.Reading.Dispatch

/-! Reading without separators. It is reading with separators, of the text up to the first one,
but for a fraction that the separator interrupts.
-/

namespace Numeral

/-- The options, with separators or without. -/
def Options.withSeparators (options : Options) (separators : Bool) : Options :=
  { options with digitSeparators := separators }

namespace Cursor

/-- The place of the first separator from the cursor on, or the end of the text if there is none.
-/
def firstSeparator (cursor : Cursor) : Nat :=
  cursor.offset + cursor.unread.idxOf '_'

/-- The first outcome is a literal that ends at a separator with a fraction and no exponent, where
the fraction may not have one. The second outcome is what becomes of it.
-/
inductive Interrupts (cursor : Cursor)
    : Outcome (Radix × Binary64) → Outcome (Radix × Binary64) → Prop
  | mk {start radix value fault} (inside : cursor.firstSeparator < cursor.length)
    (faulty : radix.fractionFault? = some fault)
    (bare : radix.HasBareFraction (cursor.between start cursor.firstSeparator))
    : Interrupts cursor (.complete start cursor.firstSeparator (radix, value))
        (.malformed start (cursor.firstSeparator + 1) (radix, value) fault)

variable {cursor : Cursor} {options : Options} {front more : List Char}

theorem Interrupts.inside {outcome other : Outcome (Radix × Binary64)}
    (interrupts : cursor.Interrupts outcome other)
    : cursor.firstSeparator < cursor.length := by
  cases interrupts with
  | mk inside _ _ => exact inside

theorem firstSeparator_of_unread (split : cursor.unread = front ++ '_' :: more)
    (clean : '_' ∉ front)
    : cursor.firstSeparator = cursor.offset + front.length := by
  rw [firstSeparator, split, List.idxOf_append_of_notMem clean, List.idxOf_cons_self, Nat.add_zero]

/-- Where separators end the text there is still something behind the first one. -/
theorem firstSeparator_lt_length (split : cursor.unread = front ++ '_' :: more)
    (clean : '_' ∉ front)
    : cursor.firstSeparator < cursor.length := by
  have unread := cursor.length_unread
  rw [split, List.length_append, List.length_cons] at unread
  rw [firstSeparator_of_unread split clean]
  omega

theorem firstSeparator_of_not_mem (clean : '_' ∉ cursor.unread)
    : cursor.firstSeparator = cursor.offset + cursor.unread.length := by
  rw [firstSeparator, List.idxOf_eq_length clean]

/-- What is found up to the first separator, whether separators are allowed or not. -/
theorem outcome_upTo_firstSeparator (running : options.haltOnMalformed = false)
    (place : cursor.firstSeparator = cursor.offset + front.length)
    (begins : cursor.unread.take front.length = front) (clean : '_' ∉ front)
    : ((cursor.upTo cursor.firstSeparator).readLiteral (options.withSeparators true)).outcome
      = .ok (.ofLexeme cursor.offset ((options.withSeparators false).literal? front)) := by
  have separated : (options.withSeparators true).haltOnMalformed = false := running
  rw [outcome_readLiteral _ separated, place, offset_upTo, unread_upTo, begins]
  exact congrArg (fun literal? => Except.ok (Outcome.ofLexeme cursor.offset literal?))
    (options.literal?_of_not_mem true clean)

/-- The literals that a separator interrupts are those that end in an open fraction. -/
theorem interrupts_iff (split : cursor.unread = front ++ '_' :: more) (clean : '_' ∉ front)
    {literal? : Option (Lexeme (Radix × Binary64))} {other : Outcome (Radix × Binary64)}
    : cursor.Interrupts (.ofLexeme cursor.offset literal?) other
      ↔ ∃ literal fault,
          literal? = some literal
          ∧ literal.value.1.Interruptible front literal fault
          ∧ other
            = .ofLexeme cursor.offset (some ⟨literal.length + 1, literal.value, some fault⟩) := by
  have place := firstSeparator_of_unread split clean
  have span : cursor.between cursor.offset cursor.firstSeparator = front := by
    rw [place, between_offset, split, List.take_left]
  constructor
  · intro interrupts
    generalize same : Outcome.ofLexeme cursor.offset literal? = outcome at interrupts
    obtain ⟨inside, faulty, bare⟩ := interrupts
    obtain ⟨length, found, rfl, stop⟩ := Outcome.ofLexeme_eq_complete same
    rw [place, Nat.add_left_cancel_iff] at stop
    rw [span] at bare
    refine ⟨_, _, found, ⟨faulty, rfl, stop.symm, bare⟩, ?_⟩
    rw [place, stop, Outcome.ofLexeme, Nat.add_assoc]
  · rintro ⟨⟨length, ⟨radix, value⟩, _⟩, fault, rfl, ⟨faulty, sound, whole, bare⟩, rfl⟩
    dsimp only at faulty sound whole bare
    subst sound whole
    have interrupts : cursor.Interrupts (.complete cursor.offset cursor.firstSeparator _)
        (.malformed cursor.offset (cursor.firstSeparator + 1) (radix, value) fault) :=
      .mk (firstSeparator_lt_length split clean) faulty (span.symm ▸ bare)
    rwa [place, Nat.add_assoc] at interrupts

/-- Without separators a literal is what it is with them up to the first one, or what becomes of it
where that one interrupts it; and with none in the text the option does nothing.
-/
theorem readLiteral_without_separators (cursor : Cursor) (options : Options)
    (running : options.haltOnMalformed = false)
    : (∃ outcome,
        ((cursor.upTo cursor.firstSeparator).readLiteral (options.withSeparators true)).outcome
          = .ok outcome
        ∧ (∀ other,
            cursor.Interrupts outcome other
            → (cursor.readLiteral (options.withSeparators false)).outcome = .ok other)
        ∧ ((∀ other, ¬ cursor.Interrupts outcome other)
            → (cursor.readLiteral (options.withSeparators false)).outcome = .ok outcome))
      ∧ ('_' ∉ cursor.unread
          → cursor.readLiteral (options.withSeparators false)
            = cursor.readLiteral (options.withSeparators true)) := by
  have without : (cursor.readLiteral (options.withSeparators false)).outcome
      = .ok (.ofLexeme cursor.offset ((options.withSeparators false).literal? cursor.unread)) :=
    cursor.outcome_readLiteral running
  constructor
  · by_cases member : '_' ∈ cursor.unread
    · obtain ⟨front, more, split, clean⟩ := List.eq_append_cons_of_mem member
      have place := firstSeparator_of_unread split clean
      have begins : cursor.unread.take front.length = front := by rw [split, List.take_left]
      refine ⟨_, outcome_upTo_firstSeparator running place begins clean, ?_, ?_⟩
      · intro other interrupts
        obtain ⟨literal, fault, found, interruptible, rfl⟩ :=
          (interrupts_iff split clean).mp interrupts
        rw [without, split, Options.literal?_interrupted rfl found interruptible]
      · intro uninterrupted
        have closed (literal fault)
            (found : (options.withSeparators false).literal? front = some literal)
            : ¬ literal.value.1.Interruptible front literal fault := fun interruptible =>
          uninterrupted _
            ((interrupts_iff split clean).mpr ⟨literal, fault, found, interruptible, rfl⟩)
        rw [without, split, Options.literal?_uninterrupted rfl closed]
    · have place := firstSeparator_of_not_mem member
      refine ⟨_, outcome_upTo_firstSeparator running place List.take_length member, ?_, ?_⟩
      · intro other interrupts
        have inside := interrupts.inside
        have unread := cursor.length_unread
        omega
      · intro _
        exact without
  · intro clean
    simp only [readLiteral, Options.withSeparators, options.literal?_of_not_mem true clean]
    rfl

/-- A hexadecimal fraction that a separator interrupts. -/
theorem readLiteral_without_separators_hexadecimal
    : ((ofText "0x1.8_p2".toList 0).readLiteral { digitSeparators := false }).outcome
      = .ok (.malformed 0 6 (.hexadecimal, Decimal.toBinary64 ⟨15, -1⟩ false)
          .hexadecimalNumberExpected) := by
  have bare : Radix.hexadecimal.HasBareFraction "0x1.8".toList := by
    refine ⟨by simp, fun c member marker marked => ?_⟩
    simp only [String.reduceToList, List.mem_cons, List.not_mem_nil, or_false] at member
    rcases member with rfl | rfl | rfl | rfl | rfl <;> cases marker <;> contradiction
  have cut : ((ofText "0x1.8".toList 0).readLiteral {}).outcome
      = .ok (.complete 0 5 (.hexadecimal, Decimal.toBinary64 ⟨15, -1⟩ false)) := by
    decide +kernel
  obtain ⟨⟨outcome, found, interrupted, -⟩, -⟩ :=
    readLiteral_without_separators (ofText "0x1.8_p2".toList 0) {} rfl
  obtain rfl := Except.ok.inj (cut.symm.trans found)
  exact interrupted _ (.mk (by decide) rfl bare)

end Cursor

end Numeral
