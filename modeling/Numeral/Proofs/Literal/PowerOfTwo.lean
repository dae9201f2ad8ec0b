import Numeral.Proofs.Binary64.Exact
import Numeral.Proofs.Literal.Delimiting
import Numeral.Proofs.Literal.Exponent
import Numeral.Proofs.Reading.Dispatch

/-! Binary and hexadecimal literals with a power of two. A natural number of at most 53 bits,
however its digits are written, and a power of two give the number that they write, if it is a
binary64 number at all: neither the digits nor the steps of the scaling are ever rounded.
-/

namespace Numeral

open Decimal (IsNumeral natural)

/-- The text has digits of the radix, one at least, and separators in any places, and the digits
write `n`.
-/
structure Radix.WritesNatural (radix : Radix) (text : List Char) (n : Nat) : Prop where
  characters : ∀ c ∈ text, radix.HasDigit c ∨ c = '_'
  present : ∃ c ∈ text, radix.HasDigit c
  number : Digit.number radix.base (Digit.values radix.base text) = n

/-- The text is an exponent that scales by `2 ^ k`. -/
inductive Marker.WritesPowerOfTwo : List Char → ℤ → Prop
  | mk {letter sign digits} (marker : letter = 'p' ∨ letter = 'P') (numeral : IsNumeral digits)
    : WritesPowerOfTwo (letter :: (Sign.written sign ++ digits))
        (Sign.applyInt sign (natural digits))

/-- The text is a lead, digits that write `n`, and an exponent that scales them by `2 ^ k`. -/
inductive Radix.WritesScaled (radix : Radix) : List Char → Nat → ℤ → Prop
  | mk {whole exponent n k} (led : radix.lead ≠ []) (digits : radix.WritesNatural whole n)
    (scale : Marker.WritesPowerOfTwo exponent k)
    : WritesScaled radix (radix.lead ++ (whole ++ exponent)) n k

-----------------------------------------------------------------------------------------
-- Digits
-----------------------------------------------------------------------------------------

namespace Significand

/-- Digits are added without rounding as long as all of them together have few bits. -/
theorem foldl_mul_add_ofNat {bits : Nat} (normal : bits ≤ 1023) (digits : List Nat) {n : Nat}
    (few : digits.foldl (fun number digit => number * 2 ^ bits + digit) n < 2 ^ 53)
    : digits.foldl
        (fun sum digit => (sum.mul (Binary64.powerOfTwo bits)).add (.ofNat digit)) (.ofNat n)
      = Binary64.ofNat (digits.foldl (fun number digit => number * 2 ^ bits + digit) n) := by
  induction digits generalizing n with
  | nil => rfl
  | cons digit rest ih =>
      -- No number on the way is larger than the last one.
      have grows : n * 2 ^ bits + digit
          ≤ (digit :: rest).foldl (fun number digit => number * 2 ^ bits + digit) n := by
        rw [List.foldl_cons, Digit.foldl_number]
        exact Nat.le_trans (Nat.le_mul_of_pos_right _ (Nat.pow_pos (Nat.two_pow_pos bits)))
          (Nat.le_add_right ..)
      rw [List.foldl_cons, List.foldl_cons,
        Binary64.mul_add_ofNat normal (Nat.lt_of_le_of_lt grows few)]
      exact ih few

theorem accumulate_whole {bits : Nat} (normal : bits ≤ 1023) {digits : List Nat}
    (few : Digit.number (2 ^ bits) digits < 2 ^ 53)
    : accumulate bits ⟨digits, []⟩ = .ofNat (Digit.number (2 ^ bits) digits) := by
  have zero : Binary64.zero = .ofNat 0 := by decide +kernel
  rw [accumulate, List.foldl_nil, zero]
  exact foldl_mul_add_ofNat normal digits few

end Significand

/-- The digits of a radix with a lead have the value that they write. -/
theorem Radix.value_whole {radix : Radix} (led : radix.lead ≠ []) {digits : List Nat}
    (few : Digit.number radix.base digits < 2 ^ 53)
    : radix.value ⟨digits, []⟩ = .ofNat (Digit.number radix.base digits) := by
  cases radix with
  | decimal => contradiction
  | binary => exact Significand.accumulate_whole (show 1 ≤ 1023 by omega) few
  | hexadecimal => exact Significand.accumulate_whole (show 4 ≤ 1023 by omega) few

-----------------------------------------------------------------------------------------
-- Characters
-----------------------------------------------------------------------------------------

variable {radix : Radix} {options : Options} {text whole exponent : List Char} {n : Nat} {k : ℤ}

namespace Marker.WritesPowerOfTwo

theorem spells (writes : WritesPowerOfTwo exponent k)
    : binary.SpellsExponent exponent [] ⟨exponent.length, clamp k, none⟩ := by
  cases writes with
  | @mk letter sign digits marker numeral =>
      have marked : binary.hasLetter letter = true := by simpa [hasLetter] using marker
      have spells : binary.SpellsExponent (letter :: (Sign.written sign ++ digits)) [] _ :=
        .digits marked numeral.nonempty ⟨numeral.all, by simp⟩
      rw [applyInt_saturate] at spells
      simpa [Nat.add_comm] using spells

/-- It goes on neither with the digits before it nor with a point. -/
theorem apart (writes : WritesPowerOfTwo exponent k) (radix : Radix) (separators : Bool)
    : ∀ c ∈ exponent.head?, radix.continues separators c = false ∧ c ≠ '.' := by
  cases writes with
  | mk marker numeral =>
      rintro letter ⟨⟩
      rcases marker with rfl | rfl <;> cases radix <;> cases separators <;> decide

/-- It scales by what it writes, as long as that is within the limit. -/
theorem scaleBy (writes : WritesPowerOfTwo exponent k) (within : |k| ≤ limit) (x : Binary64)
    (scaleByTen : ℤ → Binary64)
    : x.scaleBy scaleByTen exponent = ⟨exponent.length, x.scaleByTwo k, none⟩ := by
  have found : binary.exponent? exponent = some ⟨exponent.length, clamp k, none⟩ := by
    have read := writes.spells.read
    rwa [List.append_nil] at read
  have kept : clamp k = k := clamp_of_between (abs_le.mp within).1 (abs_le.mp within).2
  rw [Binary64.scaleBy, suffix?_of_isSome (Option.isSome_of_eq_some found), found, kept]
  rfl

end Marker.WritesPowerOfTwo

namespace Radix

/-- The digits are the whole of the significand. -/
theorem WritesNatural.significand? (digits : radix.WritesNatural whole n) (led : radix.lead ≠ [])
    (scale : Marker.WritesPowerOfTwo exponent k)
    : radix.significand? true (radix.lead ++ (whole ++ exponent))
      = some ⟨radix.lead.length + whole.length, ⟨Digit.values radix.base whole, []⟩, none⟩ := by
  have isRun : IsRun (radix.continues true) whole ([] ++ exponent) := by
    refine ⟨fun c member => ?_, fun c first => (scale.apart radix true c first).1⟩
    rw [continues, Bool.or_eq_true, isDigit_base_iff]
    simpa using digits.characters c member
  have present : Digit.values radix.base whole ≠ [] := by
    obtain ⟨c, member, digit⟩ := digits.present
    intro none
    have missed := (Digit.values_eq_nil_iff radix.base whole).mp none c member
    rw [(radix.isDigit_base_iff c).mpr digit] at missed
    contradiction
  have found : radix.wholeDigits? whole = some (Digit.values radix.base whole) :=
    if_neg (by simp [present, led])
  have noPoint : exponent.head? ≠ some '.' := fun point => (scale.apart radix true '.' point).2 rfl
  have spells : radix.SpellsSignificand true (radix.lead ++ (whole ++ [])) exponent
      ⟨radix.lead.length + whole.length, ⟨Digit.values radix.base whole, []⟩, none⟩ :=
    .mk isRun found (.absent noPoint)
  simpa using spells.read

theorem WritesScaled.led (writes : radix.WritesScaled text n k)
    : radix.lead ≠ [] := by
  cases writes with
  | mk led _ _ => exact led

/-- All of the text is a literal, and its digits are not rounded. -/
theorem WritesScaled.radix_literal? (writes : radix.WritesScaled text n k) (few : n < 2 ^ 53)
    (within : |k| ≤ Marker.limit) (separators : options.digitSeparators = true)
    : radix.literal? options text
      = some ⟨text.length, (Binary64.ofNat n).scaleByTwo k, none⟩ := by
  obtain ⟨led, digits, scale⟩ := writes
  have value := value_whole led (digits.number.symm ▸ few)
  rw [digits.number] at value
  simp [Radix.literal?, separators, digits.significand? led scale, value, scale.scaleBy within,
    Lexeme.extend, Nat.add_assoc]

/-- There is no sign before a lead. -/
theorem WritesScaled.leading? (writes : radix.WritesScaled text n k)
    : Sign.leading? text = none := by
  obtain ⟨led, -, -⟩ := writes
  cases radix with
  | decimal => contradiction
  | binary | hexadecimal => rfl

/-- The radix of the literal is the one that its lead tells. -/
theorem WritesScaled.literal? (writes : radix.WritesScaled text n k) (few : n < 2 ^ 53)
    (within : |k| ≤ Marker.limit) (separators : options.digitSeparators = true)
    (allowed : options.allows radix = true)
    : options.literal? text
      = some ⟨text.length, (radix, (Binary64.ofNat n).scaleByTwo k), none⟩ := by
  have found := writes.radix_literal? few within separators
  have announces : options.Announces radix text :=
    ⟨allowed, literal?_isSome_iff.mp (Option.isSome_of_eq_some found)⟩
  have selects : options.Selects text radix := by
    cases radix with
    | decimal => exact (writes.led rfl).elim
    | binary | hexadecimal => exact announces
  rw [Options.literal?_of_selects selects, found]
  rfl

theorem WritesScaled.signedNumber? (writes : radix.WritesScaled text n k) (few : n < 2 ^ 53)
    (within : |k| ≤ Marker.limit) (separators : options.digitSeparators = true)
    (allowed : options.allows radix = true)
    : options.signedNumber? text
      = some ⟨text.length, (Binary64.ofNat n).scaleByTwo k, none⟩ := by
  have literal := writes.literal? few within separators allowed
  rw [Options.signedNumber?, writes.leading?, Options.number?, Sign.length, List.drop_zero, literal]
  simp [Lexeme.map, Lexeme.extend, Sign.apply]

end Radix

namespace Cursor

/-- A number that digits and a power of two write is read from them, and all of them are read. -/
theorem power_of_two_exact {x : Binary64} (writes : radix.WritesScaled text n k)
    (few : n < 2 ^ 53) (within : |k| ≤ 2147483647) (finite : x.isFinite = true)
    (positive : x.negative = false) (value : x.toRat = n * 2 ^ k)
    : ((ofText text 0).readRadix {} radix).outcome = .ok (.complete 0 text.length x)
      ∧ ((ofText text 0).readLiteral {}).outcome = .ok (.complete 0 text.length (radix, x))
      ∧ ((ofText text 0).readNumber {}).outcome = .ok (.complete 0 text.length x)
      ∧ ((ofText text 0).readSignedNumber {}).outcome = .ok (.complete 0 text.length x) := by
  have allowed : Options.allows {} radix = true := by cases radix <;> rfl
  have exact := Binary64.scaleByTwo_ofNat few finite positive value
  have own : radix.literal? {} text = some ⟨text.length, x, none⟩ := by
    rw [writes.radix_literal? few within rfl, exact]
  have literal : Options.literal? {} text = some ⟨text.length, (radix, x), none⟩ := by
    rw [writes.literal? few within rfl allowed, exact]
  have signed : Options.signedNumber? {} text = some ⟨text.length, x, none⟩ := by
    rw [writes.signedNumber? few within rfl allowed, exact]
  have unread : (ofText text 0).unread = text := by simp [unread, ofText]
  have start : (ofText text 0).offset = 0 := by simp [ofText]
  have read : ((ofText text 0).readLiteral {}).outcome
      = .ok (.complete 0 text.length (radix, x)) := by
    rw [outcome_readLiteral _ rfl, unread, start, literal]
    simp [Outcome.ofLexeme]
  refine ⟨?_, read, ?_, ?_⟩
  · rw [readRadix, Cursor.read, unread, start, own]
    simp [Outcome.ofLexeme]
  · rw [readNumber, Reading.map, read]
    rfl
  · rw [readSignedNumber, watch_of_running _ rfl, unread, start, signed]
    simp [Outcome.ofLexeme]

/-- The least positive number, from one bit. -/
theorem power_of_two_exact_least
    : ((ofText "0b0_1P-01074".toList 0).readNumber {}).outcome
      = .ok (.complete 0 12 ⟨false, 1, by decide⟩) := by
  have digits : Radix.binary.WritesNatural "0_1".toList 1 :=
    ⟨by simp [Radix.HasDigit], ⟨'1', by simp, .inr rfl⟩, by decide⟩
  have scale : Marker.WritesPowerOfTwo "P-01074".toList (-1074) :=
    @Marker.WritesPowerOfTwo.mk 'P' (some .minus) "01074".toList (.inr rfl) ⟨by simp, by simp⟩
  have least : Binary64.toRat ⟨false, 1, by decide⟩ = (1 : ℕ) * 2 ^ (-1074 : ℤ) := by
    have unit : Binary64.signedUnits ⟨false, 1, by decide⟩ = 1 := by decide
    rw [Binary64.toRat, unit, Binary64.cast_unitsPerOne, zpow_neg]
    norm_num
  exact (power_of_two_exact (.mk (by decide) digits scale) (by decide) (by decide) (by decide)
    rfl least).2.2.1

end Cursor

end Numeral
