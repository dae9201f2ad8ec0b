import Mathlib.Data.List.TakeWhile
import Numeral.Json.Decode
import Numeral.Proofs.Decimal.Display
import Numeral.Proofs.Json.Values

/-! The integers among the numbers of JSON. A number does not begin with a needless zero, so an
integer has one text: what is read as an integer is exactly what that integer is written as.
-/

namespace Numeral

namespace Decimal

theorem natural_singleton {c : Char} (digit : c.isDigit = true)
    : natural [c] = c.toNat - '0'.toNat := by
  simp [natural, Digit.number, Digit.values, Digit.value?_ten, digit]

/-- Digits that do not begin with a zero write more than zero. -/
theorem natural_pos {digits : List Char} (numeral : IsNumeral digits)
    (noZero : digits.head? ≠ some '0')
    : 0 < natural digits := by
  obtain ⟨c, rest, rfl⟩ := List.exists_cons_of_ne_nil numeral.nonempty
  obtain ⟨digit, inRest⟩ := List.forall_mem_cons.mp numeral.digits
  have positive : 0 < natural [c] := by
    have range := Char.isDigit_iff_toNat.mp digit
    have other : c.toNat ≠ '0'.toNat := fun same =>
      noZero (congrArg some (Char.toNat_inj.mp same))
    rw [natural_singleton digit]
    omega
  calc 0
    _ < natural [c] * 10 ^ rest.length := Nat.mul_pos positive (Nat.pow_pos (by omega))
    _ ≤ natural [c] * 10 ^ rest.length + natural rest := Nat.le_add_right ..
    _ = natural (c :: rest) := (natural_append [c] inRest).symm

theorem natural_singleton_lt {c : Char} (digit : c.isDigit = true)
    : natural [c] < 10 := by
  have range := Char.isDigit_iff_toNat.mp digit
  have nine : '9'.toNat = '0'.toNat + 9 := rfl
  rw [natural_singleton digit]
  omega

theorem toDigits_natural_singleton {c : Char} (digit : c.isDigit = true)
    : Nat.toDigits 10 (natural [c]) = [c] := by
  have range := Char.isDigit_iff_toNat.mp digit
  have zero : '0'.toNat = 48 := rfl
  have small := natural_singleton_lt digit
  have same : (natural [c]).digitChar.toNat = c.toNat := by
    rw [Nat.toNat_digitChar_of_lt_ten small, natural_singleton digit]
    omega
  rw [Nat.toDigits_of_lt_base small, Char.toNat_inj.mp same]

/-- Without needless zeros digits are those of the number that they write. -/
theorem toDigits_natural {digits : List Char} (numeral : IsNumeral digits)
    (least : digits.length = 1 ∨ digits.head? ≠ some '0')
    : Nat.toDigits 10 (natural digits) = digits := by
  induction digits using List.reverseRecOn with
  | nil => exact (numeral.nonempty rfl).elim
  | append_singleton front c ih =>
      obtain ⟨inFront, last⟩ := List.forall_mem_append.mp numeral.digits
      have digit := List.forall_mem_singleton.mp last
      by_cases empty : front = []
      · subst empty
        exact toDigits_natural_singleton digit
      · have noZero : front.head? ≠ some '0' := by
          rw [List.head?_append_of_ne_nil _ empty] at least
          refine least.resolve_left fun short => empty ?_
          simpa using short
        have numeralFront : IsNumeral front := ⟨empty, inFront⟩
        rw [natural_append front last, List.length_singleton, Nat.pow_one, Nat.mul_comm,
          ← Nat.toDigits_append_toDigits (by omega) (natural_pos numeralFront noZero)
            (natural_singleton_lt digit),
          ih numeralFront (.inr noZero), toDigits_natural_singleton digit]

theorem head?_toDigits_ne_zero {n : Nat} (positive : 0 < n)
    : (Nat.toDigits 10 n).head? ≠ some '0' := by
  induction n using Nat.strongRecOn with
  | _ n ih =>
      rcases Nat.lt_or_ge n 10 with small | large
      · rw [Nat.toDigits_of_lt_base small, List.head?_cons, ne_eq, Option.some.injEq,
          Nat.digitChar_eq_zero]
        omega
      · rw [Nat.toDigits_of_base_le (by omega) large,
          List.head?_append_of_ne_nil _ Nat.toDigits_ne_nil]
        exact ih (n / 10) (by omega) (by omega)

/-- The digits of a number have no needless zeros. -/
theorem toDigits_least (n : Nat)
    : (Nat.toDigits 10 n).length = 1 ∨ (Nat.toDigits 10 n).head? ≠ some '0' := by
  rcases Nat.eq_zero_or_pos n with rfl | positive
  · exact .inl rfl
  · exact .inr (head?_toDigits_ne_zero positive)

/-- Digits do not begin with a minus sign. -/
theorem IsNumeral.append_ne_minus_cons {digits : List Char} (numeral : IsNumeral digits)
    (rest unsigned : List Char)
    : digits ++ rest ≠ '-' :: unsigned := by
  intro same
  obtain ⟨c, more, rfl⟩ := List.exists_cons_of_ne_nil numeral.nonempty
  obtain ⟨rfl, -⟩ := List.cons.inj same
  exact Bool.false_ne_true (numeral.digits '-' List.mem_cons_self)

theorem IsNumeral.ne_minus_cons {digits : List Char} (numeral : IsNumeral digits)
    (unsigned : List Char)
    : digits ≠ '-' :: unsigned := by
  simpa using numeral.append_ne_minus_cons [] unsigned

end Decimal

namespace Json

open Decimal (IsNumeral natural)

variable {text digits : List Char} {json : Json} {n : Int}

theorem all_isDigit_iff
    : text.all (Digit.isDigit 10) = true ↔ ∀ c ∈ text, c.isDigit = true := by
  simp [Digit.isDigit_ten]

theorem isDigit_of_isNumeral (numeral : IsNumeral digits)
    : ∀ c ∈ digits, Digit.isDigit 10 c = true := by
  simpa [Digit.isDigit_ten] using numeral.digits

-----------------------------------------------------------------------------------------
-- Written integers
-----------------------------------------------------------------------------------------

theorem isNumber_toDigits (n : Nat)
    : Token.isNumber (Nat.toDigits 10 n) = true
      ∧ Token.isNumber ('-' :: Nat.toDigits 10 n) = true := by
  have numeral := Decimal.isNumeral_toDigits n
  have unsigned : (Nat.toDigits 10 n).takeWhile (Digit.isDigit 10) = Nat.toDigits 10 n :=
    List.takeWhile_eq_self_iff.mpr (isDigit_of_isNumeral numeral)
  have least := Decimal.toDigits_least n
  constructor
  · unfold Token.isNumber
    split
    next rest same => exact (numeral.ne_minus_cons rest same).elim
    next => simp [unsigned, numeral.nonempty, least, Token.isNumberEnd, Token.isExponent]
  · simp [Token.isNumber, unsigned, numeral.nonempty, least, Token.isNumberEnd, Token.isExponent]

theorem isSound_ofNat (n : Nat)
    : (ofNat n).IsSound :=
  .number (isNumber_toDigits n).1

theorem isSound_ofInt (n : Int)
    : (ofInt n).IsSound := by
  rw [ofInt]
  split
  · exact .number (isNumber_toDigits n.natAbs).2
  · exact isSound_ofNat n.natAbs

theorem asInt?_unsigned (unsigned : ∀ rest, text ≠ '-' :: rest)
    : (number text).asInt?
      = if text.all (Digit.isDigit 10) then some (natural text : Int) else none := by
  unfold asInt?
  split
  next rest same =>
    cases same
    exact (unsigned rest rfl).elim
  next same =>
    cases same
    rfl
  next other => exact (other text rfl).elim

theorem asInt?_signed (text : List Char)
    : (number ('-' :: text)).asInt?
      = if text.all (Digit.isDigit 10) ∧ natural text ≠ 0 then some (-natural text : Int)
        else none :=
  rfl

theorem asInt?_ofNat (n : Nat)
    : (ofNat n).asInt? = some (n : Int) := by
  have numeral := Decimal.isNumeral_toDigits n
  rw [ofNat, asInt?_unsigned numeral.ne_minus_cons,
    if_pos (all_isDigit_iff.mpr numeral.digits), Decimal.natural_toDigits]

/-- An integer is read as it is written. -/
theorem asInt?_ofInt (n : Int)
    : (ofInt n).asInt? = some n := by
  rw [ofInt]
  split
  next negative =>
    have inside := all_isDigit_iff.mpr (Decimal.isNumeral_toDigits n.natAbs).digits
    have absolute : -(n.natAbs : Int) = n := by omega
    rw [asInt?_signed, Decimal.natural_toDigits, if_pos ⟨inside, by omega⟩, absolute]
  next positive =>
    have absolute : (n.natAbs : Int) = n := by omega
    rw [asInt?_ofNat, absolute]

/-- A run of digits goes on as far as there are digits. -/
theorem eq_nil_of_isRun {rest : List Char} (isRun : IsRun (Digit.isDigit 10) digits rest)
    (inside : (digits ++ rest).all (Digit.isDigit 10) = true)
    : rest = [] := by
  cases rest with
  | nil => rfl
  | cons c more =>
      have digit := List.all_eq_true.mp inside c (by simp)
      rw [isRun.ends c rfl] at digit
      contradiction

/-- What is read as an integer is written as that integer. -/
theorem eq_ofInt_of_asInt? (sound : json.IsSound) (found : json.asInt? = some n)
    : json = ofInt n := by
  cases sound with
  | @number written isNumber =>
      obtain ⟨minus, digits, rest, rfl, sign, isRun, nonempty, least, -⟩ :=
        Token.exists_digits_of_isNumber isNumber
      have numeral : IsNumeral digits :=
        ⟨nonempty, all_isDigit_iff.mp (List.all_eq_true.mpr isRun.inside)⟩
      rcases sign with rfl | rfl
      · rw [List.nil_append, asInt?_unsigned (numeral.append_ne_minus_cons rest)] at found
        split at found
        next inside =>
          obtain rfl := eq_nil_of_isRun isRun inside
          obtain rfl := Option.some.inj found
          rw [List.append_nil, List.nil_append, ofInt, if_neg (by omega), ofNat, Int.natAbs_natCast,
            Decimal.toDigits_natural numeral least]
        next => contradiction
      · rw [List.singleton_append, asInt?_signed] at found
        split at found
        next inside =>
          obtain rfl := eq_nil_of_isRun isRun inside.1
          obtain rfl := Option.some.inj found
          have positive := inside.2
          rw [List.append_nil] at positive ⊢
          rw [List.singleton_append, ofInt, if_pos (by omega), Int.natAbs_neg, Int.natAbs_natCast,
            Decimal.toDigits_natural numeral least]
        next => contradiction
  | _ => contradiction

theorem asInt?_eq_some_iff (sound : json.IsSound)
    : json.asInt? = some n ↔ json = ofInt n :=
  ⟨eq_ofInt_of_asInt? sound, fun same => same ▸ asInt?_ofInt n⟩

-----------------------------------------------------------------------------------------
-- Integers in a range
-----------------------------------------------------------------------------------------

theorem asWord64?_eq_some_iff (sound : json.IsSound) {n : Nat}
    : json.asWord64? = some n ↔ json = ofNat n ∧ n < 2 ^ 64 := by
  simp only [asWord64?, Option.map_eq_some_iff, Option.filter_eq_some_iff, decide_eq_true_eq,
    asInt?_eq_some_iff sound]
  constructor
  · rintro ⟨i, ⟨rfl, nonneg, small⟩, rfl⟩
    rw [ofInt, if_neg (by omega)]
    exact ⟨by congr 1; omega, by omega⟩
  · rintro ⟨rfl, small⟩
    exact ⟨n, ⟨by rw [ofInt, if_neg (by omega), Int.natAbs_natCast], by omega, by omega⟩, rfl⟩

theorem asWord64?_ofNat {n : Nat} (small : n < 2 ^ 64)
    : (ofNat n).asWord64? = some n :=
  (asWord64?_eq_some_iff (isSound_ofNat n)).mpr ⟨rfl, small⟩

theorem asInt32?_eq_some_iff (sound : json.IsSound)
    : json.asInt32? = some n ↔ json = ofInt n ∧ -2 ^ 31 ≤ n ∧ n < 2 ^ 31 := by
  simp only [asInt32?, Option.filter_eq_some_iff, decide_eq_true_eq, asInt?_eq_some_iff sound]
  norm_num

theorem asInt32?_ofInt (least : -2 ^ 31 ≤ n) (greatest : n < 2 ^ 31)
    : (ofInt n).asInt32? = some n :=
  (asInt32?_eq_some_iff (isSound_ofInt n)).mpr ⟨rfl, least, greatest⟩

end Json

end Numeral
