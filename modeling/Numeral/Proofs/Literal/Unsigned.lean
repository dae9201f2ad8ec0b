import Numeral.Proofs.Binary64.Unsigned
import Numeral.Proofs.Literal.Extent

/-! The value of a literal, of a malformed one too, is a number without a sign, however long the
literal is. Digits that are added one by one may reach infinity, and their places may sink to zero,
but the two never meet in a product.
-/

namespace Numeral

theorem Sign.leading?_eq_minus_iff (text : List Char)
    : leading? text = some minus ↔ text.head? = some '-' := by
  cases text with
  | nil => simp [leading?]
  | cons c rest =>
      simp only [leading?, List.head?_cons, Option.bind_some, Option.some.injEq]
      unfold ofChar?
      split <;> simp_all

-----------------------------------------------------------------------------------------
-- Digits
-----------------------------------------------------------------------------------------

namespace Significand

variable {bits : Nat} {digits : List Nat} {sum place : Binary64}

/-- Every digit of the whole part multiplies by a power of two, neither zero nor infinite. -/
theorem unsigned_foldl_whole (normal : bits ≤ 1023) (digits : List Nat) (unsigned : sum.Unsigned)
    : (digits.foldl
        (fun sum digit => (sum.mul (Binary64.powerOfTwo bits)).add (.ofNat digit))
        sum).Unsigned := by
  induction digits generalizing sum with
  | nil => exact unsigned
  | cons digit rest ih =>
      have shifted := unsigned.mul (Binary64.unsigned_powerOfTwo (by omega))
        (Binary64.isFinite_powerOfTwo (by omega))
        (.inr (Binary64.isZero_powerOfTwo (k := bits) (by omega)))
      exact ih (shifted.add (Binary64.unsigned_ofNat digit))

/-- A place stays finite: it only ever shrinks, and may come to be zero. -/
theorem unsigned_foldl_fraction (normal : bits ≤ 1022) (few : ∀ digit ∈ digits, digit < 2 ^ 53)
    (unsigned : sum.Unsigned) (placeUnsigned : place.Unsigned) (finite : place.isFinite = true)
    : (digits.foldl
        (fun (sum, place) digit =>
          (sum.add ((Binary64.ofNat digit).mul place),
            place.mul (Binary64.powerOfTwo (-bits))))
        (sum, place)).1.Unsigned := by
  induction digits generalizing sum place with
  | nil => exact unsigned
  | cons digit rest ih =>
      have digitFinite := (Binary64.ofNat_exact (few digit (by simp))).1
      have partFinite : (Binary64.powerOfTwo (-bits)).isFinite = true :=
        Binary64.isFinite_powerOfTwo (by omega)
      have digitUnsigned := (Binary64.unsigned_ofNat digit).mul placeUnsigned finite
        (.inl digitFinite)
      have fewer : ∀ digit ∈ rest, digit < 2 ^ 53 :=
        fun digit member => few digit (by simp [member])
      refine ih fewer (unsigned.add digitUnsigned) ?_ ?_
      · exact placeUnsigned.mul (Binary64.unsigned_powerOfTwo (by omega)) partFinite (.inl finite)
      · exact Binary64.isFinite_mul_of_le_one finite partFinite
          (Binary64.units_powerOfTwo_le (by omega) (by omega))

theorem unsigned_accumulate {significand : Significand} (normal : bits ≤ 1022)
    (few : ∀ digit ∈ significand.fraction, digit < 2 ^ 53)
    : (significand.accumulate bits).Unsigned :=
  unsigned_foldl_fraction normal few
    (unsigned_foldl_whole (by omega) significand.whole Binary64.unsigned_zero)
    (Binary64.unsigned_powerOfTwo (by omega)) (Binary64.isFinite_powerOfTwo (by omega))

end Significand

-----------------------------------------------------------------------------------------
-- Literals
-----------------------------------------------------------------------------------------

namespace Radix

variable {radix : Radix} {separators : Bool} {body rest text : List Char} {options : Options}
  {significand : Significand}

/-- The digits of a significand are digits of its radix. -/
theorem SpellsSignificand.lt_base {lexeme : Lexeme Significand}
    (spells : radix.SpellsSignificand separators body rest lexeme)
    : ∀ digit ∈ lexeme.value.whole ++ lexeme.value.fraction, digit < radix.base := by
  obtain ⟨isRun, digits, behind⟩ := spells
  intro digit member
  rcases List.mem_append.mp member with inWhole | inFraction
  · obtain ⟨rfl, -⟩ := wholeDigits?_eq_some digits
    exact Digit.lt_of_mem_values inWhole
  · cases behind with
    | absent _ => contradiction
    | pointed _ _ => exact Digit.lt_of_mem_values inFraction
    | separated _ _ => exact Digit.lt_of_mem_values inFraction

theorem unsigned_value (lt_base : ∀ digit ∈ significand.fraction, digit < radix.base)
    : (radix.value significand).Unsigned := by
  have few : ∀ digit ∈ significand.fraction, digit < 2 ^ 53 := by
    intro digit member
    have small := lt_base digit member
    cases radix <;> simp only [base] at small <;> omega
  cases radix with
  | binary => exact Significand.unsigned_accumulate (by omega) few
  | hexadecimal => exact Significand.unsigned_accumulate (by omega) few
  | decimal => exact Binary64.unsigned_toBinary64 _

theorem unsigned_valueTimesTen (unsigned : (radix.value significand).Unsigned) (k : ℤ)
    : (radix.valueTimesTen significand k).Unsigned := by
  cases radix with
  | binary => exact unsigned.scaleByTen k
  | hexadecimal => exact unsigned.scaleByTen k
  | decimal => exact Binary64.unsigned_toBinary64 _

end Radix

theorem Binary64.Unsigned.scaleBy {x : Binary64} {scaleByTen : ℤ → Binary64} (unsigned : x.Unsigned)
    (scaled : ∀ k, (scaleByTen k).Unsigned) (text : List Char)
    : (x.scaleBy scaleByTen text).value.Unsigned := by
  unfold Binary64.scaleBy
  split
  next => exact unsigned
  next exponent found =>
    dsimp only [Lexeme.value_map]
    split
    · exact unsigned
    · split
      · exact scaled _
      · exact unsigned.scaleByTwo

theorem Radix.unsigned_literal? {radix : Radix} {options : Options} {text : List Char}
    {literal : Lexeme Binary64} (found : radix.literal? options text = some literal)
    : literal.value.Unsigned := by
  obtain ⟨body, rest, significand, rfl, spells, rfl⟩ := literal?_spelled found
  have unsigned : (radix.value significand.value).Unsigned :=
    unsigned_value fun digit member => spells.lt_base digit (List.mem_append_right _ member)
  unfold literalFrom
  split
  · exact unsigned
  · exact unsigned.scaleBy (unsigned_valueTimesTen unsigned) rest

namespace Options

variable {options : Options} {text : List Char}

theorem unsigned_literal? {literal : Lexeme (Radix × Binary64)}
    (found : options.literal? text = some literal)
    : literal.value.2.Unsigned := by
  obtain ⟨radix, inner, -, present, rfl⟩ := literal?_eq_some found
  exact Radix.unsigned_literal? present

theorem unsigned_number? {number : Lexeme Binary64} (found : options.number? text = some number)
    : number.value.Unsigned := by
  obtain ⟨literal, present, rfl⟩ := Option.map_eq_some_iff.mp found
  exact unsigned_literal? present

/-- The sign of a number, of a zero too, is the one before its literal. -/
theorem sign_signedNumber? {number : Lexeme Binary64}
    (found : options.signedNumber? text = some number)
    : number.value.isNaN = false ∧ (number.value.negative = true ↔ text.head? = some '-') := by
  obtain ⟨inner, present, rfl⟩ := Option.map_eq_some_iff.mp found
  obtain ⟨isNumber, positive⟩ := unsigned_number? present
  rw [← Sign.leading?_eq_minus_iff]
  dsimp only [Lexeme.value_extend, Lexeme.value_map]
  cases Sign.leading? text with
  | none => exact ⟨isNumber, by simp [Sign.apply, positive]⟩
  | some sign =>
      cases sign with
      | plus => exact ⟨isNumber, by simp [Sign.apply, positive]⟩
      | minus => exact ⟨isNumber, by simp [Sign.apply, Binary64.neg, positive]⟩

end Options

end Numeral
