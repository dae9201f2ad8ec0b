import Numeral.Proofs.Literal.Grammar

/-! What a decimal significand is: the number that its characters write once the separators
are left out, with whatever exponent goes on behind them.
-/

namespace Numeral

open Decimal (IsNumeral Writes WritesExponent)

namespace Significand

/-- The decimal significand has the digits that `mantissa` writes, in its places. -/
structure WrittenBy (significand : Significand) (mantissa : List Char) : Prop where
  length_le : significand.whole.length + significand.fraction.length ≤ mantissa.length
  lt_ten : ∀ digit ∈ significand.whole ++ significand.fraction, digit < 10
  writes : ∀ {exponent k}, WritesExponent exponent k →
    Writes (mantissa.filter (· != '_') ++ exponent) (significand.toDecimal k).toRat

theorem WrittenBy.whole {run : List Char} (numeral : IsNumeral (run.filter (· != '_')))
    : WrittenBy ⟨Digit.values 10 (run.filter (· != '_')), []⟩ run where
  length_le := by
    rw [Digit.values_filter_ne_underscore]
    exact Digit.length_values_le 10 run
  lt_ten := by
    rw [List.append_nil]
    intro digit member
    exact Digit.lt_of_mem_values member
  writes := by
    intro exponent k scale
    rw [toDecimal, Decimal.toRat_ofDigits_nil]
    exact .whole numeral scale

theorem WrittenBy.pointed {run digits : List Char}
    (numeral : IsNumeral (run.filter (· != '_'))) (inside : ∀ c ∈ digits, c.isDigit = true)
    : WrittenBy ⟨Digit.values 10 (run.filter (· != '_')), Digit.values 10 digits⟩
        (run ++ '.' :: digits) where
  length_le := by
    have wholeInside := Digit.length_values_le 10 run
    have fractionInside := Digit.length_values_le 10 digits
    rw [Digit.values_filter_ne_underscore, List.length_append, List.length_cons]
    dsimp only
    omega
  lt_ten := by
    rw [← Digit.values_append]
    intro digit member
    exact Digit.lt_of_mem_values member
  writes := by
    intro exponent k scale
    rw [toDecimal, Decimal.toRat_ofDigits, Digit.length_values_of_isDigit inside,
      List.filter_append, List.filter_cons_of_pos (by decide),
      Digit.filter_ne_underscore inside, List.append_assoc, List.cons_append]
    exact .pointed numeral inside scale

end Significand

namespace Radix

theorem isDigit_of_continues {separators : Bool} {c : Char}
    (continued : decimal.continues separators c = true)
    : c.isDigit = true ∨ (separators = true ∧ c = '_') := by
  rw [continues, Bool.or_eq_true, Bool.and_eq_true, beq_iff_eq] at continued
  rw [← Digit.isDigit_ten]
  exact continued

/-- The whole part of a decimal significand, without its separators, is a numeral. -/
theorem isNumeral_run {separators : Bool} {run : List Char} {digits : List Nat}
    (inside : ∀ c ∈ run, decimal.continues separators c = true)
    (found : decimal.wholeDigits? run = some digits)
    : IsNumeral (run.filter (· != '_'))
      ∧ digits = Digit.values 10 (run.filter (· != '_')) := by
  obtain ⟨rfl, present⟩ := wholeDigits?_eq_some found
  have same := Digit.values_filter_ne_underscore 10 run
  refine ⟨⟨?_, ?_⟩, same.symm⟩
  · intro empty
    rw [empty] at same
    exact present same.symm
  · intro c member
    obtain ⟨inRun, apart⟩ := List.mem_filter.mp member
    rcases isDigit_of_continues (inside c inRun) with digit | ⟨_, rfl⟩
    · exact digit
    · contradiction

/-- A decimal significand is written by the characters that it takes. -/
theorem decimal_significand?_writtenBy {separators : Bool} {text : List Char}
    {lexeme : Lexeme Significand} (found : decimal.significand? separators text = some lexeme)
    (sound : lexeme.fault = none)
    : ∃ mantissa rest,
        text = mantissa ++ rest
        ∧ lexeme.length = mantissa.length
        ∧ lexeme.value.WrittenBy mantissa := by
  obtain ⟨mantissa, rest, rfl, spells⟩ := significand?_spelled found
  refine ⟨mantissa, rest, rfl, spells.length_eq, ?_⟩
  obtain ⟨isRun, digits, behind⟩ := spells
  obtain ⟨numeral, rfl⟩ := isNumeral_run isRun.inside digits
  cases behind with
  | absent _ =>
      rw [List.append_nil]
      exact .whole numeral
  | pointed fractionRun _ =>
      refine .pointed numeral fun c member => ?_
      rcases isDigit_of_continues (fractionRun.inside c member) with digit | ⟨impossible, _⟩
      · exact digit
      · simp [fractionFault?] at impossible
  | separated _ _ => contradiction

end Radix

end Numeral
