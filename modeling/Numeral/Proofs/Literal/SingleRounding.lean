import Numeral.Proofs.Literal.Exponent
import Numeral.Proofs.Literal.Mantissa
import Numeral.Reading

/-! A decimal literal is rounded once. Its digits and its exponent meet in one exact number,
and where the exponent is too large for that it is too large for the rounding as well.
-/

namespace Numeral

open Binary64 (Rounds)
open Decimal (Writes WritesExponent)

namespace Significand

variable {significand : Significand}

/-- The exponent moves the point behind the whole part. -/
theorem toRat_toDecimal_lt
    (lt_ten : ∀ digit ∈ significand.whole ++ significand.fraction, digit < 10) (k : ℤ)
    : (significand.toDecimal k).toRat < 10 ^ (significand.whole.length + k) := by
  have coefficient : (Digit.number 10 (significand.whole ++ significand.fraction) : ℚ)
      < 10 ^ (significand.whole.length + significand.fraction.length) := by
    rw [← List.length_append]
    exact_mod_cast Digit.number_lt_pow lt_ten
  calc (significand.toDecimal k).toRat
    _ < 10 ^ (significand.whole.length + significand.fraction.length)
        * 10 ^ (k - significand.fraction.length) :=
      mul_lt_mul_of_pos_right coefficient (by positivity)
    _ = 10 ^ (significand.whole.length + k) := by
      rw [← zpow_natCast, ← zpow_add₀ (by norm_num)]
      congr 1
      omega

/-- So few digits cannot lift a number back from the lower limit of exponents. -/
theorem nearestMagnitude_of_le
    (lt_ten : ∀ digit ∈ significand.whole ++ significand.fraction, digit < 10)
    (short : significand.whole.length < 2 ^ 31 - 400) {k : ℤ} (low : k ≤ -Marker.limit)
    : (significand.toDecimal k).nearestMagnitude = 0 := by
  have enough : significand.whole.length + k ≤ -331 := by
    simp only [Marker.limit] at low
    omega
  apply Decimal.nearestMagnitude_eq_zero
  calc (significand.toDecimal k).toRat
    _ < 10 ^ (significand.whole.length + k) := toRat_toDecimal_lt lt_ten k
    _ ≤ 10 ^ (-331 : ℤ) := zpow_le_zpow_right₀ (by norm_num) enough

/-- At the upper limit the point has moved past all digits of the fraction and far on. -/
theorem nearestMagnitude_of_ge
    (positive : Digit.number 10 (significand.whole ++ significand.fraction) ≠ 0)
    (short : significand.fraction.length < 2 ^ 31 - 400) {k : ℤ} (high : Marker.limit ≤ k)
    : (significand.toDecimal k).nearestMagnitude = Binary64.infiniteMagnitude := by
  apply Decimal.nearestMagnitude_eq_infinite positive
  simp only [toDecimal, Decimal.ofDigits, Marker.limit] at high ⊢
  omega

theorem nearestMagnitude_of_eq_zero
    (zero : Digit.number 10 (significand.whole ++ significand.fraction) = 0) (k : ℤ)
    : (significand.toDecimal k).nearestMagnitude = 0 :=
  if_pos zero

/-- The limit of exponents changes no magnitude: at the limit everything is zero or infinite
already, unless there are so many digits that they make up for the exponent.
-/
theorem nearestMagnitude_clamp
    (lt_ten : ∀ digit ∈ significand.whole ++ significand.fraction, digit < 10)
    (short : significand.whole.length + significand.fraction.length < 2 ^ 31 - 400) (k : ℤ)
    : (significand.toDecimal (Marker.clamp k)).nearestMagnitude
      = (significand.toDecimal k).nearestMagnitude := by
  rcases le_total k (-Marker.limit) with low | notLow
  · have few : significand.whole.length < 2 ^ 31 - 400 := by omega
    rw [Marker.clamp_of_le low, nearestMagnitude_of_le lt_ten few le_rfl,
      nearestMagnitude_of_le lt_ten few low]
  rcases le_total k Marker.limit with notHigh | high
  · rw [Marker.clamp_of_between notLow notHigh]
  by_cases zero : Digit.number 10 (significand.whole ++ significand.fraction) = 0
  · rw [nearestMagnitude_of_eq_zero zero, nearestMagnitude_of_eq_zero zero]
  · have few : significand.fraction.length < 2 ^ 31 - 400 := by omega
    rw [Marker.clamp_of_ge high, nearestMagnitude_of_ge zero few le_rfl,
      nearestMagnitude_of_ge zero few high]

/-- So a value with the exponent as it is read is the number as it is written, rounded. -/
theorem rounds_clamp
    (lt_ten : ∀ digit ∈ significand.whole ++ significand.fraction, digit < 10)
    (short : significand.whole.length + significand.fraction.length < 2 ^ 31 - 400) (k : ℤ)
    : Rounds (significand.toDecimal k).toRat
        ((significand.toDecimal (Marker.clamp k)).toBinary64 false) := by
  have same : (significand.toDecimal (Marker.clamp k)).toBinary64 false
      = (significand.toDecimal k).toBinary64 false := by
    simp only [Decimal.toBinary64, nearestMagnitude_clamp lt_ten short]
  rw [same]
  exact Decimal.rounds_toBinary64 _

end Significand

/-- There are no separators in an exponent. -/
theorem Decimal.WritesExponent.filter_ne_underscore {text : List Char} {k : ℤ}
    (writes : WritesExponent text k)
    : text.filter (· != '_') = text := by
  cases writes with
  | absent => rfl
  | @marked letter sign digits marker numeral =>
      have letterKept : (letter != '_') = true := by
        rcases marker with rfl | rfl <;> rfl
      have signKept : (Sign.written sign).filter (· != '_') = Sign.written sign := by
        rcases sign with _ | _ | _ <;> rfl
      rw [List.filter_cons, if_pos letterKept, List.filter_append, signKept,
        Digit.filter_ne_underscore numeral.digits]

/-- What follows a decimal significand, if it is neither malformed nor a power of two, is the
exponent of the value.
-/
theorem Binary64.scaleBy_writes {significand : Significand} {text : List Char}
    {lexeme : Lexeme Binary64}
    (scaled : (Radix.decimal.value significand).scaleBy (Radix.decimal.valueTimesTen significand)
      text = lexeme)
    (sound : lexeme.fault = none)
    (unscaled : ∀ c ∈ text.take lexeme.length, Marker.binary.hasLetter c = false)
    : ∃ exponent k rest,
        text = exponent ++ rest
        ∧ lexeme.length = exponent.length
        ∧ WritesExponent exponent k
        ∧ lexeme.value = (significand.toDecimal (Marker.clamp k)).toBinary64 false := by
  unfold scaleBy at scaled
  split at scaled
  next =>
    subst scaled
    exact ⟨[], 0, text, rfl, rfl, .absent, rfl⟩
  next suffix found =>
    subst scaled
    have whole : suffix.fault = none := sound
    obtain ⟨marker, letter, sign, digits, rest, spelled, marked, numeral, length, value⟩ :=
      Marker.suffix?_spelled found whole
    have taken : text.take suffix.length = letter :: (Sign.written sign ++ digits) := by
      rw [length, spelled, List.take_left]
    cases marker with
    | binary =>
        have other := unscaled letter (by rw [Lexeme.length_map, taken]; exact List.mem_cons_self)
        rw [marked] at other
        contradiction
    | decimal =>
        refine ⟨letter :: (Sign.written sign ++ digits), _, rest, spelled, length,
          .marked ?_ numeral, ?_⟩
        · simpa [Marker.hasLetter] using marked
        · rw [Lexeme.value_map, whole, value]
          rfl

/-- The value of a decimal literal is the number that its characters write, rounded. -/
theorem Radix.decimal_literal?_rounds {options : Options} {text : List Char}
    {lexeme : Lexeme Binary64} (found : decimal.literal? options text = some lexeme)
    (sound : lexeme.fault = none) (short : lexeme.length < 2 ^ 31 - 400)
    (unscaled : ∀ c ∈ text.take lexeme.length, Marker.binary.hasLetter c = false)
    : ∃ q, Writes ((text.take lexeme.length).filter (· != '_')) q ∧ Rounds q lexeme.value := by
  obtain ⟨significand, before, rfl⟩ := Option.map_eq_some_iff.mp found
  cases mantissaFault : significand.fault with
  | some fault => simp [mantissaFault] at sound
  | none =>
      simp only [mantissaFault, Option.isSome_none, Bool.false_eq_true, if_false]
        at sound short unscaled ⊢
      obtain ⟨mantissa, rest, rfl, length, written⟩ :=
        decimal_significand?_writtenBy before mantissaFault
      rw [length, List.drop_left] at sound short unscaled ⊢
      rw [Lexeme.length_extend, List.take_length_add_append] at unscaled
      obtain ⟨exponent, k, after, rfl, behind, scale, value⟩ :=
        Binary64.scaleBy_writes rfl sound
          (fun c member => unscaled c (List.mem_append_right mantissa member))
      have inside := written.length_le
      rw [Lexeme.length_extend] at short
      refine ⟨(significand.value.toDecimal k).toRat, ?_, ?_⟩
      · rw [Lexeme.length_extend, List.take_length_add_append, behind, List.take_left,
          List.filter_append, scale.filter_ne_underscore]
        exact written.writes scale
      · rw [Lexeme.value_extend, value]
        exact Significand.rounds_clamp written.lt_ten (by omega) k

theorem Outcome.ofLexeme_eq_complete {α : Type} {offset start stop : Nat} {value : α}
    {lexeme? : Option (Lexeme α)} (same : ofLexeme offset lexeme? = .complete start stop value)
    : ∃ length,
        lexeme? = some ⟨length, value, none⟩ ∧ start = offset ∧ stop = offset + length := by
  rcases lexeme? with _ | ⟨length, _, _ | _⟩ <;> cases same
  exact ⟨length, rfl, rfl, rfl⟩

namespace Cursor

/-- The characters from `start` to `stop`. -/
def between (cursor : Cursor) (start stop : Nat) : List Char :=
  (cursor.text.drop start).take (stop - start)

theorem between_offset (cursor : Cursor) (length : Nat)
    : cursor.between cursor.offset (cursor.offset + length) = cursor.unread.take length := by
  rw [between, Nat.add_sub_cancel_left, unread]

/-- A decimal literal without a power of two writes one rational number, and its value is the
one binary64 number to which that is correctly rounded.
-/
theorem decimal_rounded_once {cursor : Cursor} {options : Options} {start stop : Nat}
    {value : Binary64}
    (found : (cursor.readRadix options .decimal).outcome = .ok (.complete start stop value))
    (short : stop - start < 2 ^ 31 - 400)
    (unscaled : (cursor.between start stop).any (Marker.hasLetter .binary) = false)
    : ∃ q,
        (∀ r, Writes ((cursor.between start stop).filter (· != '_')) r ↔ r = q)
        ∧ ∀ x, Rounds q x ↔ x = value := by
  obtain ⟨length, literal, rfl, rfl⟩ := Outcome.ofLexeme_eq_complete (Except.ok.inj found)
  rw [Nat.add_sub_cancel_left] at short
  rw [between_offset] at unscaled ⊢
  obtain ⟨q, writes, rounds⟩ := Radix.decimal_literal?_rounds literal rfl short
    fun c member => Bool.eq_false_iff.mpr (List.any_eq_false.mp unscaled c member)
  refine ⟨q, fun r => ⟨fun other => other.unique writes, ?_⟩,
    fun x => ⟨fun other => other.unique rounds, ?_⟩⟩
  · rintro rfl
    exact writes
  · rintro rfl
    exact rounds

theorem decimal_rounded_once_separated
    : ∃ q,
        (∀ r, Writes "0072.e+3".toList r ↔ r = q)
        ∧ ∀ x, Rounds q x ↔ x = Decimal.toBinary64 ⟨72, 3⟩ false := by
  have found : ((ofText "x007_2.e+3)".toList 1).readRadix {} .decimal).outcome
      = .ok (.complete 1 10 (Decimal.toBinary64 ⟨72, 3⟩ false)) := by
    decide +kernel
  exact decimal_rounded_once found (by decide) (by decide)

end Cursor

end Numeral
