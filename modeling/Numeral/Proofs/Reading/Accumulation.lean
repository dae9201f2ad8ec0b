import Numeral.Proofs.Literal.Accumulation
import Numeral.Proofs.Literal.Delimiting
import Numeral.Proofs.Literal.Interruption
import Numeral.Proofs.Literal.SingleRounding

/-! Literals with a lead and without exponent, however long. Binary ones are rounded faithfully.
Hexadecimal ones are too, with as many digits of the fraction as have a place of their own; without
the digits behind those a number is rounded faithfully as long as it is not near the least one.
-/

namespace Numeral

open Binary64 (RoundsFaithfully unitsPerOne)

namespace Radix

/-- The digits that the characters of a literal without exponent write. -/
def digits (radix : Radix) (span : List Char) : Significand :=
  let body := span.drop radix.lead.length
  { whole := Digit.values radix.base (body.takeWhile (· != '.'))
    fraction := Digit.values radix.base (body.dropWhile (· != '.')) }

/-- The number that the characters of a literal without exponent write. -/
def written (radix : Radix) (span : List Char) : ℚ :=
  (radix.digits span).toRat radix.base

variable {radix : Radix} {options : Options} {separators : Bool} {text body span : List Char}

-----------------------------------------------------------------------------------------
-- Digits
-----------------------------------------------------------------------------------------

theorem digits_lt_base (radix : Radix) (span : List Char)
    : ∀ digit ∈ (radix.digits span).whole ++ (radix.digits span).fraction, digit < radix.base := by
  intro digit member
  rcases List.mem_append.mp member with inWhole | inFraction
  · exact Digit.lt_of_mem_values inWhole
  · exact Digit.lt_of_mem_values inFraction

theorem written_of_digits {whole fraction : List Nat}
    (digits : radix.digits span = ⟨whole, fraction⟩)
    : radix.written span
      = Digit.number radix.base whole
        + Digit.number radix.base fraction / radix.base ^ fraction.length := by
  rw [written, digits, Significand.toRat]

/-- A point writes nothing. -/
theorem values_point_cons (base : Nat) (text : List Char)
    : Digit.values base ('.' :: text) = Digit.values base text := by
  have none : Digit.hexadecimal? '.' = none := by decide
  simp [Digit.values, Digit.value?, none]

/-- A sound significand has the digits that its characters write. -/
theorem SpellsSignificand.digits_eq {lexeme : Lexeme Significand}
    (spells : radix.SpellsSignificand separators body [] lexeme) (sound : lexeme.fault = none)
    : radix.digits body = lexeme.value := by
  obtain ⟨isRun, found, behind⟩ := spells
  obtain ⟨rfl, -⟩ := wholeDigits?_eq_some found
  have noPoint : ∀ c ∈ _, (c != '.') = true := fun c member =>
    bne_iff_ne.mpr (radix.not_point_of_continues (isRun.inside c member))
  rw [digits, List.drop_left, List.takeWhile_append_of_pos noPoint,
    List.dropWhile_append_of_pos noPoint]
  cases behind with
  | absent _ => simp [Digit.values, Lexeme.extend, Lexeme.map]
  | pointed _ _ => simp [values_point_cons, Lexeme.extend, Lexeme.map]
  | separated _ _ => contradiction

/-- A sound literal without exponent has the value of the digits that its characters write. -/
theorem value_of_unscaled {literal : Lexeme Binary64}
    (found : radix.literal? options text = some literal) (sound : literal.fault = none)
    (unscaled
      : ∀ c ∈ text.take literal.length,
          ∀ marker : Marker, marker.hasLetter c = true → radix.HasDigit c)
    : literal.value = radix.value (radix.digits (text.take literal.length)) := by
  have alone := (radix.literal?_delimited options).selfDelimited.take
    (radix.literal?_takesPart options) found
  have whole := List.length_take_of_le (radix.literal?_takesPart options text literal found).2
  generalize text.take literal.length = span at alone whole unscaled
  obtain ⟨body, rest, significand, rfl, spells, rfl⟩ := literal?_spelled alone
  obtain ⟨unspoiled, rfl⟩ := spells.sound_of_unscaled sound whole.symm unscaled
  rw [List.append_nil, spells.digits_eq unspoiled, radix.literalFrom_nil unspoiled,
    Lexeme.value_map]

end Radix

namespace Cursor

variable {cursor : Cursor} {radix : Radix} {options : Options} {start stop : Nat}
  {value : Binary64}

/-- The value is that of the digits from the beginning to the end of the literal. -/
theorem value_of_readRadix
    (found : (cursor.readRadix options radix).outcome = .ok (.complete start stop value))
    (unscaled
      : ∀ c ∈ cursor.between start stop,
          ∀ marker : Marker, marker.hasLetter c = true → radix.HasDigit c)
    : value = radix.value (radix.digits (cursor.between start stop)) := by
  obtain ⟨length, literal, rfl, rfl⟩ := Outcome.ofLexeme_eq_complete (Except.ok.inj found)
  rw [between_offset] at unscaled ⊢
  exact Radix.value_of_unscaled literal rfl unscaled

/-- Binary literals without exponent are rounded faithfully, however long they are. -/
theorem binary_rounds_faithfully
    (found : (cursor.readRadix options .binary).outcome = .ok (.complete start stop value))
    (unscaled : ∀ marker : Marker, (cursor.between start stop).any marker.hasLetter = false)
    : RoundsFaithfully (Radix.binary.written (cursor.between start stop)) value := by
  have noLetter : ∀ c ∈ cursor.between start stop,
      ∀ marker : Marker, marker.hasLetter c = true → Radix.binary.HasDigit c :=
    fun c member marker marked => (List.any_eq_false.mp (unscaled marker) c member marked).elim
  rw [value_of_readRadix found noLetter]
  have small : ∀ digit ∈ _ ++ _, digit < 2 ^ 1 :=
    Radix.binary.digits_lt_base (cursor.between start stop)
  exact Significand.roundsFaithfully_of_faithful (by omega) small
    (Significand.faithful_accumulate Nat.one_pos (by omega) small (.inr (.inl rfl)))

/-- The first half of a unit in the last place is a tie and rounded down, and what follows is lost:
the result is one of the two neighbours, though not the nearest.
-/
theorem binary_rounds_faithfully_tie
    : RoundsFaithfully (2 ^ 52 + 3 / 4) (Binary64.ofNat (2 ^ 52)) := by
  let text := "0b1_".toList ++ List.replicate 52 '0' ++ ".1_1x".toList
  have found : ((ofText text 0).readRadix {} .binary).outcome
      = .ok (.complete 0 60 (Binary64.ofNat (2 ^ 52))) := by
    decide +kernel
  have unscaled (marker : Marker) : ((ofText text 0).between 0 60).any marker.hasLetter = false := by
    cases marker <;> decide +kernel
  have digits : Radix.binary.digits ((ofText text 0).between 0 60)
      = ⟨1 :: List.replicate 52 0, [1, 1]⟩ := by
    decide +kernel
  have whole : Digit.number 2 (1 :: List.replicate 52 0) = 2 ^ 52 := by decide +kernel
  have fraction : Digit.number 2 [1, 1] = 3 := by decide
  have written : Radix.binary.written ((ofText text 0).between 0 60) = 2 ^ 52 + 3 / 4 := by
    rw [Radix.written_of_digits digits, Radix.base, whole, fraction]
    norm_num
  rw [← written]
  exact binary_rounds_faithfully found unscaled

/-- Hexadecimal literals without exponent are rounded faithfully to as many digits of the fraction
as there are places, and to all of them if there are no more or the number is large enough.
-/
theorem hexadecimal_rounds_faithfully
    (found : (cursor.readRadix options .hexadecimal).outcome = .ok (.complete start stop value))
    (unscaled : (cursor.between start stop).any (Marker.hasLetter .binary) = false)
    : RoundsFaithfully
          (((Radix.hexadecimal.digits (cursor.between start stop)).truncate 268).toRat 16) value
      ∧ ((Radix.hexadecimal.digits (cursor.between start stop)).fraction.length ≤ 268
            ∨ 2 ^ (-1020 : ℤ) ≤ Radix.hexadecimal.written (cursor.between start stop)
          → RoundsFaithfully (Radix.hexadecimal.written (cursor.between start stop)) value) := by
  have noLetter : ∀ c ∈ cursor.between start stop,
      ∀ marker : Marker, marker.hasLetter c = true → Radix.hexadecimal.HasDigit c := by
    intro c member marker marked
    cases marker with
    | binary => exact (List.any_eq_false.mp unscaled c member marked).elim
    | decimal =>
        simp only [Marker.hasLetter, Bool.or_eq_true, beq_iff_eq] at marked
        rcases marked with rfl | rfl <;> simp [Radix.HasDigit]
  rw [value_of_readRadix found noLetter]
  have small : ∀ digit ∈ _ ++ _, digit < 2 ^ 4 :=
    Radix.hexadecimal.digits_lt_base (cursor.between start stop)
  constructor
  · exact Significand.roundsFaithfully_of_faithful (by omega) small
      (Significand.faithful_accumulate_truncate (by omega) (by omega) small)
  · intro fine
    refine Significand.roundsFaithfully_of_faithful (by omega) small
      (Significand.faithful_accumulate (by omega) (by omega) small ?_)
    rcases fine with short | large
    · exact .inl short
    · refine .inr (.inr ?_)
      calc (2 : ℚ) ^ 52 * 2 ^ (1074 % 4)
        _ = 2 ^ (-1020 : ℤ) * unitsPerOne := by
          rw [Binary64.cast_unitsPerOne, ← zpow_add₀ two_ne_zero]
          norm_num
        _ ≤ (Radix.hexadecimal.digits (cursor.between start stop)).toRat 16 * unitsPerOne :=
          mul_le_mul_of_nonneg_right large Binary64.cast_unitsPerOne_pos.le

/-- A half that comes as one digit is a tie too. -/
theorem hexadecimal_rounds_faithfully_tie
    : RoundsFaithfully (2 ^ 52 + 17 / 32) (Binary64.ofNat (2 ^ 52)) := by
  let text := "0x1_0000000000000.88".toList
  have found : ((ofText text 0).readRadix {} .hexadecimal).outcome
      = .ok (.complete 0 20 (Binary64.ofNat (2 ^ 52))) := by
    decide +kernel
  have unscaled : ((ofText text 0).between 0 20).any (Marker.hasLetter .binary) = false := by
    decide +kernel
  have digits : Radix.hexadecimal.digits ((ofText text 0).between 0 20)
      = ⟨1 :: List.replicate 13 0, [8, 8]⟩ := by
    decide +kernel
  have whole : Digit.number 16 (1 :: List.replicate 13 0) = 2 ^ 52 := by decide +kernel
  have fraction : Digit.number 16 [8, 8] = 136 := by decide
  have written : Radix.hexadecimal.written ((ofText text 0).between 0 20) = 2 ^ 52 + 17 / 32 := by
    rw [Radix.written_of_digits digits, Radix.base, whole, fraction]
    norm_num
  rw [← written]
  exact (hexadecimal_rounds_faithfully found unscaled).2 (.inl (by rw [digits]; decide))

/-- The least number is read as zero when its only digit has no place. -/
theorem hexadecimal_not_rounded_faithfully
    : ¬ ∀ (cursor : Cursor) (options : Options) (start stop : Nat) (value : Binary64),
        (cursor.readRadix options .hexadecimal).outcome = .ok (.complete start stop value)
        → (cursor.between start stop).any (Marker.hasLetter .binary) = false
        → RoundsFaithfully (Radix.hexadecimal.written (cursor.between start stop)) value := by
  intro always
  let text := "0x0.".toList ++ List.replicate 268 '0' ++ ['4']
  have found : ((ofText text 0).readRadix {} .hexadecimal).outcome
      = .ok (.complete 0 273 Binary64.zero) := by
    decide +kernel
  have unscaled : ((ofText text 0).between 0 273).any (Marker.hasLetter .binary) = false := by
    decide +kernel
  have digits : Radix.hexadecimal.digits ((ofText text 0).between 0 273)
      = ⟨[0], List.replicate 268 0 ++ [4]⟩ := by
    decide +kernel
  have whole : Digit.number 16 [0] = 0 := by decide
  have fraction : Digit.number 16 (List.replicate 268 0 ++ [4]) = 4 := by decide +kernel
  have sixteenth : Radix.hexadecimal.written ((ofText text 0).between 0 273)
      = 4 / (16 ^ 268 * 16) := by
    rw [Radix.written_of_digits digits, Radix.base, whole, fraction, List.length_append,
      List.length_replicate, List.length_singleton, pow_succ, Nat.cast_zero, zero_add,
      Nat.cast_ofNat, Nat.cast_ofNat]
  have unit : Radix.hexadecimal.written ((ofText text 0).between 0 273)
      = Binary64.toRat ⟨false, 1, by decide⟩ := by
    have signed : Binary64.signedUnits ⟨false, 1, by decide⟩ = 1 := by decide
    have base : ((2 : ℚ) ^ 4) = 16 := by norm_num
    rw [sixteenth, Binary64.toRat, signed,
      Significand.unitsPerOne_eq_places (show 2 + 4 * 268 = 1074 from rfl), base, Int.cast_one]
    have nonzero : (16 : ℚ) ^ 268 ≠ 0 := pow_ne_zero _ (by norm_num)
    generalize (16 : ℚ) ^ 268 = places at nonzero
    field_simp
    norm_num
  have faithful := always (ofText text 0) {} 0 273 Binary64.zero found unscaled
  rw [unit] at faithful
  have same := congrArg (|·| * (unitsPerOne : ℚ))
    (faithful.exact ⟨false, 1, by decide⟩ (by decide) rfl).2
  simp only [Binary64.abs_toRat] at same
  exact absurd (Nat.cast_injective same) (by decide)

end Cursor

end Numeral
