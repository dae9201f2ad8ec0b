import Numeral.Literal.Basic
import Numeral.Proofs.Decimal.Display
import Numeral.Proofs.Literal.Mantissa

/-! What is parsed on the way to the value of a literal. The digits of a decimal literal are parsed
as they are written, and a number that has a power of ten behind it is displayed for that. Neither
is ever text that the parser refuses.
-/

namespace Numeral

open Decimal (Accepts AcceptsExponent IsNumeral WritesPlain exponentText natural)

-----------------------------------------------------------------------------------------
-- Digits
-----------------------------------------------------------------------------------------

namespace Significand

/-- The text without a point that ends it. -/
def withoutLastPoint (text : List Char) : List Char :=
  if text.getLast? = some '.' then text.dropLast else text

/-- The characters of a decimal significand as they are parsed: without separators, and without a
point that no digit follows.
-/
def digitText (body : List Char) : List Char :=
  withoutLastPoint (body.filter (· != '_'))

theorem withoutLastPoint_of_digits (text : List Char) {digits : List Char}
    (numeral : IsNumeral digits)
    : withoutLastPoint (text ++ digits) = text ++ digits := by
  refine if_neg fun point => ?_
  rw [List.getLast?_append_of_ne_nil _ numeral.nonempty] at point
  have digit := numeral.digits '.' (List.mem_of_getLast? point)
  contradiction

/-- A point at the end changes nothing about the number, and is not written. -/
theorem writesPlain_withoutLastPoint {whole fraction : List Char} (numeral : IsNumeral whole)
    (digits : ∀ c ∈ fraction, c.isDigit = true)
    : WritesPlain (withoutLastPoint (whole ++ '.' :: fraction))
        (natural whole + natural fraction / 10 ^ fraction.length) := by
  by_cases empty : fraction = []
  · subst fraction
    have bare : withoutLastPoint (whole ++ ['.']) = whole := by simp [withoutLastPoint]
    have nothing : natural [] = 0 := rfl
    rw [bare, nothing, Nat.cast_zero, zero_div, add_zero]
    exact .whole numeral
  · have places : IsNumeral fraction := ⟨empty, digits⟩
    have same := withoutLastPoint_of_digits (whole ++ ['.']) places
    rw [List.append_assoc, List.singleton_append] at same
    rw [same]
    exact .pointed numeral places

theorem writesPlain_run {run : List Char} (numeral : IsNumeral (run.filter (· != '_')))
    : WritesPlain (digitText run)
        (toDecimal ⟨Digit.values 10 (run.filter (· != '_')), []⟩ 0).toRat := by
  have bare := withoutLastPoint_of_digits [] numeral
  rw [List.nil_append] at bare
  rw [toDecimal, Decimal.toRat_ofDigits_nil, zpow_zero, mul_one, digitText, bare]
  exact .whole numeral

theorem writesPlain_pointed {run fraction digits : List Char}
    (numeral : IsNumeral (run.filter (· != '_'))) (inside : ∀ c ∈ digits, c.isDigit = true)
    (taken : fraction.filter (· != '_') = '.' :: digits)
    : WritesPlain (digitText (run ++ fraction))
        (toDecimal ⟨Digit.values 10 (run.filter (· != '_')), Digit.values 10 digits⟩ 0).toRat := by
  rw [toDecimal, Decimal.toRat_ofDigits, zpow_zero, mul_one,
    Digit.length_values_of_isDigit inside, digitText, List.filter_append, taken]
  exact writesPlain_withoutLastPoint numeral inside

theorem toRat_toDecimal (significand : Significand) (k : ℤ)
    : (significand.toDecimal k).toRat = (significand.toDecimal 0).toRat * 10 ^ k := by
  rw [toDecimal, toDecimal, Decimal.toRat_ofDigits, Decimal.toRat_ofDigits, zpow_zero, mul_one]

end Significand

-----------------------------------------------------------------------------------------
-- Literals
-----------------------------------------------------------------------------------------

namespace Radix

open Significand (digitText)

theorem isDigit_of_continues_false {digits : List Char}
    (inside : ∀ c ∈ digits, decimal.continues false c = true)
    : ∀ c ∈ digits, c.isDigit = true := by
  intro c member
  have continued := inside c member
  rw [continues, Bool.false_and, Bool.or_false] at continued
  rwa [← Digit.isDigit_ten]

/-- The parsed characters of a decimal significand, of a malformed one too, write its digits. -/
theorem SpellsSignificand.writesPlain {separators : Bool} {body rest : List Char}
    {lexeme : Lexeme Significand}
    (spells : decimal.SpellsSignificand separators body rest lexeme)
    : WritesPlain (digitText body) (lexeme.value.toDecimal 0).toRat := by
  cases spells with
  | @mk run _ _ _ _ isRun found behind =>
      obtain ⟨numeral, rfl⟩ := isNumeral_run isRun.inside found
      cases behind with
      | absent _ =>
          rw [List.append_nil]
          exact Significand.writesPlain_run numeral
      | pointed fractionRun _ =>
          have inside := fractionRun.inside
          rw [fractionFault?, Option.isNone_some, Bool.and_false] at inside
          have digits := isDigit_of_continues_false inside
          refine Significand.writesPlain_pointed numeral digits ?_
          rw [List.filter_cons_of_pos (by decide), Digit.filter_ne_underscore digits]
      | separated _ inside =>
          have digits := isDigit_of_continues_false inside
          refine Significand.writesPlain_pointed numeral digits ?_
          rw [List.filter_cons_of_pos (by decide), List.filter_append,
            Digit.filter_ne_underscore digits]
          simp

/-- For the literal that `text` begins with, `handed` is parsed, and the number `value` is taken for
what it is parsed as: the digits of a decimal literal on their own and with a power of ten behind
them, and otherwise the display of a finite number with a power of ten behind it.
-/
inductive Hands (options : Options) (text : List Char) : Radix → List Char → Binary64 → Prop
  | digits {significand}
    (found : decimal.significand? options.digitSeparators text = some significand)
    : Hands options text decimal (digitText (text.take significand.length))
        (decimal.value significand.value)
  | scaledDigits {significand length k}
    (found : decimal.significand? options.digitSeparators text = some significand)
    (sound : significand.fault = none)
    (exponent
      : Marker.suffix? (text.drop significand.length) = some ⟨length, (.decimal, k), none⟩)
    : Hands options text decimal (digitText (text.take significand.length) ++ exponentText k)
        (decimal.valueTimesTen significand.value k)
  | scaledNumber {radix significand length k} (led : radix.lead ≠ [])
    (found : radix.significand? options.digitSeparators text = some significand)
    (sound : significand.fault = none)
    (exponent
      : Marker.suffix? (text.drop significand.length) = some ⟨length, (.decimal, k), none⟩)
    (finite : (radix.value significand.value).isFinite = true)
    : Hands options text radix ((radix.value significand.value).display ++ exponentText k)
        (radix.valueTimesTen significand.value k)

/-- Whatever is parsed is in the accepted form, and is parsed as what it is taken for. -/
theorem Hands.parsed {options : Options} {radix : Radix} {text handed : List Char}
    {value : Binary64} (hands : Hands options text radix handed value)
    : (∃ negative q, Accepts handed negative q) ∧ Binary64.parse? handed = some value := by
  have digits {significand exponent k}
      (found : decimal.significand? options.digitSeparators text = some significand)
      (scale : AcceptsExponent exponent k)
      : Accepts (digitText (text.take significand.length) ++ exponent) false
          (significand.value.toDecimal k).toRat := by
    obtain ⟨body, rest, rfl, spells⟩ := significand?_spelled found
    rw [spells.length_eq, List.take_left, Significand.toRat_toDecimal]
    exact spells.writesPlain.accepts scale false
  cases hands with
  | digits found =>
      have accepts := digits found .absent
      rw [List.append_nil] at accepts
      exact ⟨⟨_, _, accepts⟩, accepts.parse⟩
  | @scaledDigits _ _ k found _ _ =>
      have accepts := digits found (Decimal.acceptsExponent_exponentText k)
      exact ⟨⟨_, _, accepts⟩, accepts.parse⟩
  | @scaledNumber _ _ _ k led _ _ _ finite =>
      obtain ⟨accepts, parsed⟩ := Binary64.parse?_display finite k
      refine ⟨⟨_, accepts⟩, ?_⟩
      rw [parsed]
      cases radix with
      | decimal => contradiction
      | binary => rfl
      | hexadecimal => rfl

end Radix

end Numeral
