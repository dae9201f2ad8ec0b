import Numeral.Literal.Exponent
import Numeral.Proofs.Binary64.Exact
import Numeral.Proofs.Decimal.Notation

/-! Decimal text on its way from the writer to the parser. What is written without an exponent may
have one put behind it, and is parsed as the number that was written, scaled and rounded once.
-/

namespace Numeral

namespace Sign

/-- The sign that is written: a minus sign or none. -/
def ofNegative (negative : Bool) : Option Sign :=
  if negative then some minus else none

theorem written_ofNegative_append (negative : Bool) (text : List Char)
    : written (ofNegative negative) ++ text = if negative then '-' :: text else text := by
  cases negative <;> rfl

theorem eq_minus_ofNegative (negative : Bool)
    : decide (ofNegative negative = some minus) = negative := by
  cases negative <;> rfl

/-- The sign of an integer and its absolute value. -/
theorem applyInt_ofNegative (k : ℤ)
    : applyInt (ofNegative (k < 0)) k.natAbs = k := by
  by_cases negative : k < 0
  · simp only [ofNegative, negative, decide_true, if_true, applyInt, apply]
    omega
  · simp only [ofNegative, negative, decide_false, Bool.false_eq_true, if_false, applyInt, apply]
    omega

end Sign

/-- Parses the whole of `text` as a decimal number behind a sign that may be left out. -/
def Binary64.parse? (text : List Char) : Option Binary64 :=
  let sign := Sign.leading? text
  (Decimal.read? (text.drop (Sign.length sign))).map (·.toBinary64 (sign = some .minus))

namespace Decimal

-----------------------------------------------------------------------------------------
-- Digits
-----------------------------------------------------------------------------------------

theorem natural_eq_ofDigitChars {digits : List Char} (inside : ∀ c ∈ digits, c.isDigit = true)
    : natural digits = Nat.ofDigitChars 10 digits 0 := by
  rw [natural, Digit.number, Digit.values, List.foldl_filterMap, Nat.ofDigitChars_eq_foldl]
  apply List.foldl_ext
  intro number c member
  rw [Digit.value?_ten, if_pos (inside c member)]
  exact congrArg (· + _) (Nat.mul_comm ..)

theorem isNumeral_toDigits (n : Nat)
    : IsNumeral (Nat.toDigits 10 n) where
  nonempty := Nat.toDigits_ne_nil
  digits := fun _ member => Nat.isDigit_of_mem_toDigits (by omega) (by omega) member

theorem natural_toDigits (n : Nat)
    : natural (Nat.toDigits 10 n) = n := by
  rw [natural_eq_ofDigitChars (isNumeral_toDigits n).digits, Nat.ofDigitChars_ten_toDigits]

theorem natural_append (left : List Char) {right : List Char}
    (inside : ∀ c ∈ right, c.isDigit = true)
    : natural (left ++ right) = natural left * 10 ^ right.length + natural right := by
  rw [natural, Digit.values_append, Digit.number_append, Digit.length_values_of_isDigit inside]
  rfl

theorem isDigit_of_mem_zeros {count : Nat}
    : ∀ c ∈ List.replicate count '0', c.isDigit = true := by
  intro c member
  rw [List.eq_of_mem_replicate member]
  rfl

theorem IsNumeral.append_zeros {digits : List Char} (numeral : IsNumeral digits) (count : Nat)
    : IsNumeral (digits ++ List.replicate count '0')
      ∧ natural (digits ++ List.replicate count '0') = natural digits * 10 ^ count := by
  have inside : ∀ c ∈ digits ++ List.replicate count '0', c.isDigit = true :=
    List.forall_mem_append.mpr ⟨numeral.digits, isDigit_of_mem_zeros⟩
  refine ⟨⟨List.append_ne_nil_of_left_ne_nil numeral.nonempty _, inside⟩, ?_⟩
  rw [natural_eq_ofDigitChars inside, Nat.ofDigitChars_append, Nat.ofDigitChars_replicate_zero,
    ← natural_eq_ofDigitChars numeral.digits, Nat.mul_comm]

theorem IsNumeral.zeros_append {digits : List Char} (numeral : IsNumeral digits) (count : Nat)
    : IsNumeral (List.replicate count '0' ++ digits)
      ∧ natural (List.replicate count '0' ++ digits) = natural digits := by
  have inside : ∀ c ∈ List.replicate count '0' ++ digits, c.isDigit = true :=
    List.forall_mem_append.mpr ⟨isDigit_of_mem_zeros, numeral.digits⟩
  refine ⟨⟨List.append_ne_nil_of_right_ne_nil _ numeral.nonempty, inside⟩, ?_⟩
  rw [natural_eq_ofDigitChars inside, Nat.ofDigitChars_append, Nat.ofDigitChars_replicate_zero,
    Nat.mul_zero, ← natural_eq_ofDigitChars numeral.digits]

/-- Some of the digits of a numeral are a numeral, too. -/
theorem IsNumeral.of_subset {text part : List Char} (numeral : IsNumeral text)
    (present : 0 < part.length) (inside : part ⊆ text)
    : IsNumeral part where
  nonempty := List.length_pos_iff.mp present
  digits c member := numeral.digits c (inside member)

-----------------------------------------------------------------------------------------
-- Written numbers
-----------------------------------------------------------------------------------------

/-- The text is of digits, with a point among them or without, and writes `q`. -/
inductive WritesPlain : List Char → ℚ → Prop
  | whole {digits} (numeral : IsNumeral digits) : WritesPlain digits (natural digits)
  | pointed {whole fraction} (numeral : IsNumeral whole) (places : IsNumeral fraction)
    : WritesPlain (whole ++ '.' :: fraction)
        (natural whole + natural fraction / 10 ^ fraction.length)

/-- A point in a numeral divides it by ten for each digit behind the point. -/
theorem IsNumeral.writesPlain_append {whole fraction : List Char} (numeral : IsNumeral whole)
    (places : IsNumeral fraction)
    : WritesPlain (whole ++ '.' :: fraction)
        (natural (whole ++ fraction) / 10 ^ fraction.length) := by
  have value : (natural (whole ++ fraction) : ℚ) / 10 ^ fraction.length
      = natural whole + natural fraction / 10 ^ fraction.length := by
    rw [natural_append whole places.digits]
    push_cast
    field_simp
  rw [value]
  exact .pointed numeral places

theorem IsNumeral.writesPlain_split {text : List Char} {places : Nat} (numeral : IsNumeral text)
    (some : 0 < places) (inside : places < text.length)
    : WritesPlain
        (text.take (text.length - places) ++ '.' :: text.drop (text.length - places))
        (natural text / 10 ^ places) := by
  have length : (text.drop (text.length - places)).length = places := by
    rw [List.length_drop]
    omega
  have whole : IsNumeral (text.take (text.length - places)) :=
    numeral.of_subset (by rw [List.length_take]; omega) (List.take_subset _ text)
  have fraction : IsNumeral (text.drop (text.length - places)) :=
    numeral.of_subset (by rw [length]; exact some) (List.drop_subset _ text)
  have split := whole.writesPlain_append fraction
  rwa [List.take_append_drop, length] at split

/-- The writer is exact. -/
theorem writesPlain_write (x : Decimal)
    : WritesPlain x.write x.toRat := by
  have digits := isNumeral_toDigits x.coefficient
  unfold write
  dsimp only
  split
  next large =>
    obtain ⟨numeral, shifted⟩ := digits.append_zeros x.exponent.toNat
    have value : x.toRat
        = natural (Nat.toDigits 10 x.coefficient ++ List.replicate x.exponent.toNat '0') := by
      have power : (10 : ℚ) ^ x.exponent = 10 ^ x.exponent.toNat := by
        rw [← zpow_natCast, Int.toNat_of_nonneg (by omega)]
      rw [shifted, natural_toDigits, toRat, power]
      push_cast
      rfl
    rw [value]
    exact .whole numeral
  next small =>
    generalize padding : (-x.exponent).toNat + 1 - (Nat.toDigits 10 x.coefficient).length = zeros
    obtain ⟨numeral, same⟩ := digits.zeros_append zeros
    have value : x.toRat
        = natural (List.replicate zeros '0' ++ Nat.toDigits 10 x.coefficient)
          / 10 ^ (-x.exponent).toNat := by
      rw [same, natural_toDigits, toRat, div_eq_mul_inv, ← zpow_natCast, ← zpow_neg,
        Int.toNat_of_nonneg (by omega), neg_neg]
    rw [value]
    refine numeral.writesPlain_split (Nat.pos_of_ne_zero small) ?_
    rw [List.length_append, List.length_replicate]
    omega

-----------------------------------------------------------------------------------------
-- Parsed numbers
-----------------------------------------------------------------------------------------

/-- The text is nothing, or a small `e`, a minus sign that may be left out and digits, and writes
the exponent `k`.
-/
inductive AcceptsExponent : List Char → ℤ → Prop
  | absent : AcceptsExponent [] 0
  | marked {negative digits} (numeral : IsNumeral digits)
    : AcceptsExponent ('e' :: (Sign.written (Sign.ofNegative negative) ++ digits))
        (Sign.applyInt (Sign.ofNegative negative) (natural digits))

/-- The text is in the form that the parser is relied on to accept: a minus sign that may be left
out, digits, a point with or without digits behind it that may be left out, and an exponent that
may be left out. It writes `q` with the sign of `negative`.
-/
inductive Accepts : List Char → Bool → ℚ → Prop
  | whole {negative digits exponent k} (numeral : IsNumeral digits)
    (scale : AcceptsExponent exponent k)
    : Accepts (Sign.written (Sign.ofNegative negative) ++ (digits ++ exponent)) negative
        (natural digits * 10 ^ k)
  | pointed {negative whole fraction exponent k} (numeral : IsNumeral whole)
    (digits : ∀ c ∈ fraction, c.isDigit = true) (scale : AcceptsExponent exponent k)
    : Accepts
        (Sign.written (Sign.ofNegative negative) ++ (whole ++ '.' :: (fraction ++ exponent)))
        negative ((natural whole + natural fraction / 10 ^ fraction.length) * 10 ^ k)

theorem AcceptsExponent.writes {text : List Char} {k : ℤ} (accepts : AcceptsExponent text k)
    : WritesExponent text k := by
  cases accepts with
  | absent => exact .absent
  | marked numeral => exact .marked (.inl rfl) numeral

theorem Writes.leading? {text : List Char} {q : ℚ} (writes : Writes text q)
    : Sign.leading? text = none := by
  cases writes with
  | whole numeral _ => exact numeral.leading? _
  | pointed numeral _ _ => exact numeral.leading? _

theorem Accepts.writes {text : List Char} {negative : Bool} {q : ℚ}
    (accepts : Accepts text negative q)
    : ∃ body, text = Sign.written (Sign.ofNegative negative) ++ body ∧ Writes body q := by
  cases accepts with
  | whole numeral scale => exact ⟨_, rfl, .whole numeral scale.writes⟩
  | pointed numeral digits scale => exact ⟨_, rfl, .pointed numeral digits scale.writes⟩

/-- What is nearest to a decimal number depends on nothing but its value. -/
theorem nearestMagnitude_congr {x y : Decimal} (same : x.toRat = y.toRat)
    : x.nearestMagnitude = y.nearestMagnitude := by
  have nearest := x.nearest_nearestMagnitude
  rw [same] at nearest
  exact nearest.unique y.nearest_nearestMagnitude

theorem toBinary64_congr {x y : Decimal} (same : x.toRat = y.toRat) (negative : Bool)
    : x.toBinary64 negative = y.toBinary64 negative := by
  simp only [toBinary64, nearestMagnitude_congr same]

/-- What is in the accepted form is parsed, as the number that it writes, rounded once. -/
theorem Accepts.exists_parse {text : List Char} {negative : Bool} {q : ℚ}
    (accepts : Accepts text negative q)
    : ∃ x : Decimal, x.toRat = q ∧ Binary64.parse? text = some (x.toBinary64 negative) := by
  obtain ⟨body, rfl, writes⟩ := accepts.writes
  obtain ⟨x, read, same⟩ := writes.read
  refine ⟨x, same, ?_⟩
  simp only [Binary64.parse?, Sign.leading?_written_append writes.leading?,
    Sign.drop_length_written, read, Option.map_some, Sign.eq_minus_ofNegative]

theorem Accepts.parse {text : List Char} {negative : Bool} {x : Decimal}
    (accepts : Accepts text negative x.toRat)
    : Binary64.parse? text = some (x.toBinary64 negative) := by
  obtain ⟨y, same, parsed⟩ := accepts.exists_parse
  rw [parsed, toBinary64_congr same]

/-- The text of the exponent `k` as it is put behind a number. -/
def exponentText (k : ℤ) : List Char :=
  'e' :: (Sign.written (Sign.ofNegative (k < 0)) ++ Nat.toDigits 10 k.natAbs)

theorem acceptsExponent_exponentText (k : ℤ)
    : AcceptsExponent (exponentText k) k := by
  have accepts : AcceptsExponent (exponentText k) (Sign.applyInt (Sign.ofNegative (k < 0))
      (natural (Nat.toDigits 10 k.natAbs))) :=
    .marked (isNumeral_toDigits _)
  rwa [natural_toDigits, Sign.applyInt_ofNegative] at accepts

theorem WritesPlain.accepts {body exponent : List Char} {q : ℚ} {k : ℤ}
    (plain : WritesPlain body q) (scale : AcceptsExponent exponent k) (negative : Bool)
    : Accepts (Sign.written (Sign.ofNegative negative) ++ (body ++ exponent)) negative
        (q * 10 ^ k) := by
  cases plain with
  | whole numeral => exact .whole numeral scale
  | pointed numeral places =>
      rw [List.append_assoc, List.cons_append]
      exact .pointed numeral places.digits scale

theorem toRat_scaleByTen (x : Decimal) (k : ℤ)
    : (x.scaleByTen k).toRat = x.toRat * 10 ^ k := by
  rw [toRat, toRat, scaleByTen, zpow_add₀ (by norm_num), mul_assoc]

end Decimal

namespace Binary64

open Decimal

variable {x : Binary64}

/-- A finite number is displayed as a minus sign that may be left out and plain digits. -/
theorem display_of_isFinite (finite : x.isFinite = true)
    : x.display
      = Sign.written (Sign.ofNegative x.negative) ++ (Decimal.shortest x.magnitude).write := by
  rw [Sign.written_ofNegative_append, display, isNaN_of_isFinite finite, if_neg Bool.false_ne_true,
    if_pos finite]

/-- To scale a finite number by a power of ten is to parse its display with the exponent. -/
theorem parse?_display (finite : x.isFinite = true) (k : ℤ)
    : (∃ q, Accepts (x.display ++ exponentText k) x.negative q)
      ∧ parse? (x.display ++ exponentText k) = some (x.scaleByTen k) := by
  have accepts := (writesPlain_write (Decimal.shortest x.magnitude)).accepts
    (acceptsExponent_exponentText k) x.negative
  rw [← List.append_assoc, ← display_of_isFinite finite, ← toRat_scaleByTen] at accepts
  refine ⟨⟨_, accepts⟩, ?_⟩
  rw [accepts.parse, scaleByTen, if_pos finite]

end Binary64

end Numeral
