import Numeral.Proofs.Decimal.Shortest
import Numeral.Proofs.Literal.Delimiting
import Numeral.Proofs.Literal.Exponent
import Numeral.Proofs.Reading.Dispatch

/-! Displayed numbers are read back. Plain digits with a minus sign or none are one decimal literal
from end to end, with the value that they are parsed as; and the display of a number that has an
exponent of zero behind it is parsed as the number again.
-/

namespace Numeral

open Decimal (IsNumeral WritesPlain natural)

-----------------------------------------------------------------------------------------
-- Plain digits
-----------------------------------------------------------------------------------------

namespace Decimal

variable {text digits rest : List Char} {q : ℚ}

theorem WritesPlain.characters (plain : WritesPlain text q)
    : ∀ c ∈ text, c.isDigit = true ∨ c = '.' := by
  intro c member
  cases plain with
  | whole numeral => exact .inl (numeral.digits c member)
  | pointed numeral places =>
      rcases List.mem_append.mp member with whole | fraction
      · exact .inl (numeral.digits c whole)
      · rcases List.mem_cons.mp fraction with rfl | place
        · exact .inr rfl
        · exact .inl (places.digits c place)

theorem WritesPlain.leading? (plain : WritesPlain text q)
    : Sign.leading? text = none := by
  cases plain with
  | whole numeral =>
      have bare := numeral.leading? []
      rwa [List.append_nil] at bare
  | pointed numeral _ => exact numeral.leading? _

theorem IsNumeral.continues (numeral : IsNumeral digits) (separators : Bool)
    : ∀ c ∈ digits, Radix.decimal.continues separators c = true := by
  intro c member
  rw [Radix.continues, Radix.base, numeral.all c member, Bool.true_or]

/-- A numeral is a whole part. -/
theorem IsNumeral.wholeDigits? (numeral : IsNumeral digits)
    : Radix.decimal.wholeDigits? digits = some (Digit.values 10 digits) := by
  have present : Digit.values 10 digits ≠ [] := by
    rw [← List.length_pos_iff, Digit.length_values_of_isDigit numeral.digits]
    exact List.length_pos_iff.mpr numeral.nonempty
  have first : digits.head? ≠ some '_' := fun separator =>
    absurd (numeral.digits '_' (List.mem_of_mem_head? separator)) (by decide)
  exact if_neg (not_or.mpr ⟨present, fun separated => first separated.2⟩)

/-- Plain digits are a significand, whether separators are allowed or not. -/
theorem WritesPlain.spells (plain : WritesPlain text q) (separators : Bool)
    : ∃ significand,
        Radix.decimal.SpellsSignificand separators text [] ⟨text.length, significand, none⟩
        ∧ (significand.toDecimal 0).toRat = q := by
  cases plain with
  | whole numeral =>
      have isRun : IsRun (Radix.decimal.continues separators) text ([] ++ []) :=
        ⟨numeral.continues separators, by simp⟩
      have spells := Radix.SpellsSignificand.mk isRun numeral.wholeDigits? (.absent (by simp))
      refine ⟨⟨Digit.values 10 text, []⟩, ?_, ?_⟩
      · simpa [Radix.lead, Lexeme.map, Lexeme.extend] using spells
      · rw [Significand.toDecimal, toRat_ofDigits_nil, zpow_zero, mul_one]
        rfl
  | @pointed whole fraction numeral places =>
      have pointEnds : Radix.decimal.continues separators '.' = false := by
        cases separators <;> decide
      have isRun : IsRun (Radix.decimal.continues separators) whole ('.' :: fraction ++ []) :=
        ⟨numeral.continues separators, by simpa using pointEnds⟩
      have behind : Radix.decimal.SpellsFraction separators ('.' :: fraction) [] _ :=
        .pointed ⟨places.continues _, by simp⟩ (by simp)
      have spells := Radix.SpellsSignificand.mk isRun numeral.wholeDigits? behind
      refine ⟨⟨Digit.values 10 whole, Digit.values 10 fraction⟩, ?_, ?_⟩
      · simpa [Radix.lead, Radix.base, Lexeme.map, Lexeme.extend] using spells
      · rw [Significand.toDecimal, toRat_ofDigits, Digit.length_values_of_isDigit places.digits,
          zpow_zero, mul_one]
        rfl

/-- No lead stands in plain digits. -/
theorem WritesPlain.not_announced (plain : WritesPlain text q) {radix : Radix}
    (led : radix.lead ≠ []) (separators : Bool)
    : ¬ radix.Announced separators text := by
  obtain ⟨letter, lead, notPoint, notDigit, -⟩ := Radix.apart_of_lead led separators
  rintro ⟨gap, digit, rest, rfl, -⟩
  rw [lead] at plain
  rcases plain.characters letter (by simp) with isDigit | point
  · rw [Radix.continues, Radix.base, Digit.isDigit_ten, isDigit, Bool.true_or] at notDigit
    contradiction
  · exact notPoint point

/-- Plain digits are read as the number that they write, rounded once, and no other radix fits. -/
theorem WritesPlain.number? {x : Decimal} (plain : WritesPlain text x.toRat) (options : Options)
    : options.number? text = some ⟨text.length, x.toBinary64 false, none⟩ := by
  obtain ⟨significand, spells, same⟩ := plain.spells options.digitSeparators
  have literal := spells.literal?
  rw [List.append_nil, Radix.literalFrom_nil _ rfl] at literal
  have value : Radix.decimal.value significand = x.toBinary64 false := toBinary64_congr same false
  have selects : options.Selects text .decimal :=
    ⟨fun announces => plain.not_announced (by decide) _ announces.2,
      fun announces => plain.not_announced (by decide) _ announces.2⟩
  rw [Options.number?, Options.literal?_of_selects selects, literal, ← value]
  rfl

end Decimal

-----------------------------------------------------------------------------------------
-- Signs and exponents
-----------------------------------------------------------------------------------------

namespace Binary64

variable {x : Binary64} {text : List Char}

/-- The text shows the number: it has plain digits behind a minus sign or none, and is parsed as the
number.
-/
structure ShownBy (x : Binary64) (text : List Char) : Prop where
  form
    : ∃ negative body q,
        text = Sign.written (Sign.ofNegative negative) ++ body ∧ WritesPlain body q
  parsed : parse? text = some x

theorem shownBy_display (finite : x.isFinite = true)
    : x.ShownBy x.display where
  form := ⟨x.negative, _, _, display_of_isFinite finite, Decimal.writesPlain_write _⟩
  parsed := parse?_display_self finite

/-- What shows a number is a signed literal with that value. -/
theorem ShownBy.signedNumber? (shown : x.ShownBy text) (options : Options)
    : options.signedNumber? text = some ⟨text.length, x, none⟩ := by
  obtain ⟨⟨negative, body, q, rfl, plain⟩, parsed⟩ := shown
  have accepts := plain.accepts .absent negative
  rw [List.append_nil, zpow_zero, mul_one] at accepts
  obtain ⟨decimal, rfl, same⟩ := accepts.exists_parse
  rw [parsed, Option.some.injEq] at same
  rw [Options.signedNumber?, Sign.leading?_written_append plain.leading?, Sign.drop_length_written,
    plain.number?, same]
  cases negative <;> simp [Lexeme.map, Lexeme.extend, Sign.ofNegative, Sign.apply, Sign.length,
    Sign.written, Decimal.toBinary64, neg, Nat.add_comm]

end Binary64

/-- The text is an exponent of zero: a marker in either case, a sign or none, and zeros. -/
inductive Marker.WritesZero (marker : Marker) : List Char → Prop
  | mk {letter sign zeros} (marked : marker.hasLetter letter = true)
    : WritesZero marker (letter :: (Sign.written sign ++ List.replicate (zeros + 1) '0'))

/-- However many zeros there are, and with whichever sign, they are read as zero. -/
theorem Marker.WritesZero.spells {marker : Marker} {text : List Char}
    (writes : marker.WritesZero text)
    : marker.SpellsExponent text [] ⟨text.length, 0, none⟩ := by
  cases writes with
  | @mk letter sign zeros marked =>
      have one : IsNumeral ['0'] := ⟨by simp, by simp⟩
      obtain ⟨numeral, same⟩ := one.zeros_append zeros
      rw [← List.replicate_succ'] at numeral same
      have isRun : IsRun (Digit.isDigit 10) (List.replicate (zeros + 1) '0') [] :=
        ⟨numeral.all, by simp⟩
      have spells := @SpellsExponent.digits marker letter sign _ [] marked numeral.nonempty isRun
      have nothing : Sign.applyInt sign (natural ['0']) = 0 := by
        rcases sign with _ | _ | _ <;> rfl
      rw [applyInt_saturate, same, nothing] at spells
      have length := spells.length_eq
      dsimp only at length
      rw [length] at spells
      exact spells

namespace Binary64

variable {x : Binary64} {text : List Char}

/-- An exponent of zero scales by nothing, with either marker. -/
theorem applyExponent_of_writesZero (finite : x.isFinite = true) {marker : Marker}
    (writes : marker.WritesZero text)
    : x.applyExponent text = ⟨text.length, x, none⟩ := by
  have found := writes.spells.read
  rw [List.append_nil] at found
  rw [applyExponent, scaleBy, Marker.suffix?_of_isSome (Option.isSome_of_eq_some found), found]
  cases marker with
  | decimal => simp [Lexeme.map, scaleByTen_zero finite]
  | binary => simp [Lexeme.map, scaleByTwo_zero]

/-- The number is read from every text that shows it, as its display does, and an exponent of zero
scales it to itself.
-/
structure ReadsBack (x : Binary64) : Prop where
  shown : x.ShownBy x.display
  displayed : signedNumberOf (String.ofList x.display) = .complete 0 x.display.length x
  read : ∀ text, x.ShownBy text → signedNumberOf (String.ofList text) = .complete 0 text.length x
  scaled
    : ∀ (marker : Marker) text,
        marker.WritesZero text
        → ((Cursor.ofText text 0).applyExponent x).outcome = .ok (.complete 0 text.length x)

theorem ShownBy.signedNumberOf (shown : x.ShownBy text)
    : signedNumberOf (String.ofList text) = .complete 0 text.length x := by
  rw [Numeral.signedNumberOf, String.toList_ofList, shown.signedNumber?, Outcome.ofLexeme,
    Nat.zero_add]

/-- A finite number comes back from its display bit for bit, zeros of either sign, subnormal numbers
and numbers of hundreds of digits too.
-/
theorem displays_read_back (finite : x.isFinite = true)
    : x.ReadsBack where
  shown := shownBy_display finite
  displayed := (shownBy_display finite).signedNumberOf
  read _ shown := shown.signedNumberOf
  scaled := by
    intro marker text writes
    have unread : (Cursor.ofText text 0).unread = text := by simp [Cursor.unread, Cursor.ofText]
    have start : (Cursor.ofText text 0).offset = 0 := by simp [Cursor.ofText]
    rw [Cursor.applyExponent, Cursor.read, unread, start,
      applyExponent_of_writesZero finite writes, Outcome.ofLexeme, Nat.zero_add]

/-- The negative number next to zero, which has its only digit in the 324th place. -/
theorem displays_read_back_least
    : signedNumberOf (String.ofList (display ⟨true, 1, by decide⟩))
        = .complete 0 327 ⟨true, 1, by decide⟩
      ∧ ((Cursor.ofText "P-00".toList 0).applyExponent ⟨true, 1, by decide⟩).outcome
        = .ok (.complete 0 4 ⟨true, 1, by decide⟩) := by
  have back : ReadsBack ⟨true, 1, by decide⟩ := displays_read_back (by decide)
  have length : (display ⟨true, 1, by decide⟩).length = 327 := by decide +kernel
  have displayed := back.displayed
  rw [length] at displayed
  exact ⟨displayed, back.scaled .binary _ (@Marker.WritesZero.mk .binary 'P' (some .minus) 1 rfl)⟩

end Binary64

end Numeral
