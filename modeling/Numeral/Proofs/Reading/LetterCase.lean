import Numeral.Proofs.Literal.LetterCase
import Numeral.Proofs.Reading.Delimiting
import Numeral.Proofs.Reading.Placement

/-! Reading texts that differ in the case of their letters. What is read is the same, and as much of
it, wherever a zero has the same letter of a lead behind it in both.
-/

namespace Numeral.Cursor

variable {cursor other : Cursor}

/-- What is left of the texts differs in case alone too. -/
theorem equalUpToCase_unread (equal : EqualUpToCase cursor.text other.text)
    (here : other.offset = cursor.offset)
    : EqualUpToCase cursor.unread other.unread := by
  rw [unread, unread, here]
  exact equal.drop cursor.offset

theorem offset_behind_congr {α : Type} (equal : EqualUpToCase cursor.text other.text)
    (here : other.offset = cursor.offset) (lexeme? : Option (Lexeme α))
    : (other.behind lexeme?).offset = (cursor.behind lexeme?).offset := by
  cases lexeme? with
  | none => exact here
  | some lexeme => simp only [behind, advance, offset_seek, here, length, equal.length_eq]

/-- The case of letters does not matter, except for the letter of a lead. -/
theorem readLiteral_ignores_case (options : Options)
    (equal : EqualUpToCase cursor.text other.text) (here : other.offset = cursor.offset)
    (kept
      : cursor.get? cursor.offset = some '0'
        → ∀ letter ∈ cursor.get? (cursor.offset + 1),
            letter ∈ ['b', 'B', 'x', 'X'] → other.get? (cursor.offset + 1) = some letter)
    : (other.readLiteral options).outcome = (cursor.readLiteral options).outcome
      ∧ (other.readLiteral options).cursor.offset = (cursor.readLiteral options).cursor.offset := by
  have leads : KeepsLeads cursor.unread other.unread := by
    simpa only [KeepsLeads, unread, here, List.getElem?_drop, Nat.add_zero, get?] using kept
  have same := (equalUpToCase_unread equal here).literal?_eq leads options
  constructor
  · rw [readLiteral, readLiteral, same, here]
    exact outcome_watch_congr here ..
  · rw [readLiteral, readLiteral, same, here, cursor_watch, cursor_watch]
    exact offset_behind_congr equal here _

/-- Digits, the marker of a power of two and the letter that ends the literal, each in the other
case.
-/
theorem readLiteral_ignores_case_hexadecimal
    : ((ofText "(0xaEP+1E)".toList 1).readLiteral {}).outcome
      = .ok (.complete 1 8 (.hexadecimal, .ofNat 348)) := by
  have found : ((ofText "(0xAep+1e)".toList 1).readLiteral {}).outcome
      = .ok (.complete 1 8 (.hexadecimal, .ofNat 348)) := by
    decide +kernel
  have equal : EqualUpToCase "(0xAep+1e)".toList "(0xaEP+1E)".toList := by
    rw [EqualUpToCase]
    decide +kernel
  rw [← found]
  refine (readLiteral_ignores_case {} equal (by decide) ?_).1
  rintro - letter ⟨⟩ -
  rfl

end Numeral.Cursor
