import Numeral.Decimal.Notation
import Numeral.Proofs.Decimal.Rounding
import Numeral.Proofs.Text.Number

/-! What decimal text writes, said without a reader: digits, a point that may be left out, and
an exponent as large as its digits make it. The reader reads all of it exactly, so a text
writes one number at most.
-/

namespace Numeral

namespace Sign

/-- The characters of a sign that may be left out. -/
def written : Option Sign → List Char
  | none => []
  | some plus => ['+']
  | some minus => ['-']

@[simp] theorem length_written (sign : Option Sign)
    : (written sign).length = length sign := by
  rcases sign with _ | _ | _ <;> rfl

theorem written_append_drop (text : List Char)
    : written (leading? text) ++ text.drop (length (leading? text)) = text := by
  cases text with
  | nil => rfl
  | cons c rest =>
      simp only [leading?, List.head?_cons, Option.bind_some]
      unfold ofChar?
      split <;> rfl

theorem drop_length_written (sign : Option Sign) (text : List Char)
    : (written sign ++ text).drop (length sign) = text := by
  rw [← length_written, List.drop_left]

theorem leading?_written_append {text : List Char} (bare : leading? text = none)
    (sign : Option Sign)
    : leading? (written sign ++ text) = sign := by
  rcases sign with _ | _ | _
  · exact bare
  · rfl
  · rfl

end Sign

namespace Decimal

/-- Decimal digits, one at least. -/
structure IsNumeral (text : List Char) : Prop where
  nonempty : text ≠ []
  digits : ∀ c ∈ text, c.isDigit = true

/-- The natural number that decimal digits write. -/
def natural (digits : List Char) : Nat :=
  Digit.number 10 (Digit.values 10 digits)

/-- The text is an exponent, or nothing in place of one, and writes `k`. -/
inductive WritesExponent : List Char → ℤ → Prop
  | absent : WritesExponent [] 0
  | marked {letter sign digits} (marker : letter = 'e' ∨ letter = 'E')
    (numeral : IsNumeral digits)
    : WritesExponent (letter :: (Sign.written sign ++ digits))
        (Sign.applyInt sign (natural digits))

/-- The text writes the rational number `q`. -/
inductive Writes : List Char → ℚ → Prop
  | whole {whole exponent k} (numeral : IsNumeral whole) (scale : WritesExponent exponent k)
    : Writes (whole ++ exponent) (natural whole * 10 ^ k)
  | pointed {whole fraction exponent k} (numeral : IsNumeral whole)
    (digits : ∀ c ∈ fraction, c.isDigit = true) (scale : WritesExponent exponent k)
    : Writes (whole ++ '.' :: (fraction ++ exponent))
        ((natural whole + natural fraction / 10 ^ fraction.length) * 10 ^ k)

/-- The digits of a fraction count from the point on. -/
theorem toRat_ofDigits (whole fraction : List Nat) (k : ℤ)
    : (ofDigits whole fraction k).toRat
      = (Digit.number 10 whole + Digit.number 10 fraction / 10 ^ fraction.length) * 10 ^ k := by
  have places : (10 : ℚ) ^ fraction.length ≠ 0 := by positivity
  simp only [ofDigits, toRat, Digit.number_append]
  rw [zpow_sub₀ (by norm_num), zpow_natCast]
  push_cast
  field_simp

theorem toRat_ofDigits_nil (whole : List Nat) (k : ℤ)
    : (ofDigits whole [] k).toRat = Digit.number 10 whole * 10 ^ k := by
  simp [ofDigits, toRat]

theorem IsNumeral.leading? {digits : List Char} (numeral : IsNumeral digits) (rest : List Char)
    : Sign.leading? (digits ++ rest) = none := by
  obtain ⟨c, more, rfl⟩ := List.exists_cons_of_ne_nil numeral.nonempty
  exact Sign.leading?_cons_of_isDigit (numeral.digits c (by simp)) _

theorem WritesExponent.read {text : List Char} {k : ℤ} (writes : WritesExponent text k)
    : readExponent? text = some k := by
  cases writes with
  | absent => rfl
  | @marked letter sign digits marker numeral =>
      have bare : Sign.leading? digits = none := by
        simpa using numeral.leading? []
      have all : digits.all (Digit.isDigit 10) = true := by
        simpa [Digit.isDigit_ten] using numeral.digits
      simp only [readExponent?, Sign.leading?_written_append bare, Sign.drop_length_written]
      rw [if_pos ⟨marker, numeral.nonempty, all⟩]
      rfl

/-- An exponent goes on neither with the digits before it nor with a point. -/
theorem WritesExponent.apart {text : List Char} {k : ℤ} (writes : WritesExponent text k)
    : text.takeWhile (Digit.isDigit 10) = []
      ∧ text.dropWhile (Digit.isDigit 10) = text
      ∧ text.head? ≠ some '.' := by
  cases writes with
  | absent => simp
  | marked marker _ =>
      rcases marker with rfl | rfl <;> simp [Digit.isDigit_ten, Char.isDigit]

theorem IsNumeral.all {text : List Char} (numeral : IsNumeral text)
    : ∀ c ∈ text, Digit.isDigit 10 c = true := by
  intro c member
  rw [Digit.isDigit_ten, numeral.digits c member]

theorem read?_whole {whole exponent : List Char} {k : ℤ} (numeral : IsNumeral whole)
    (scale : WritesExponent exponent k)
    : read? (whole ++ exponent) = some (ofDigits (Digit.values 10 whole) [] k) := by
  obtain ⟨noDigits, same, noPoint⟩ := scale.apart
  have taken : (whole ++ exponent).takeWhile (Digit.isDigit 10) = whole := by
    rw [List.takeWhile_append_of_pos numeral.all, noDigits, List.append_nil]
  have dropped : (whole ++ exponent).dropWhile (Digit.isDigit 10) = exponent := by
    rw [List.dropWhile_append_of_pos numeral.all, same]
  have pointless : (exponent.head? == some '.') = false := by simpa using noPoint
  simp only [read?, taken, dropped, pointless, numeral.nonempty, if_false, Bool.false_eq_true,
    List.length_nil, List.drop_zero, scale.read, Option.map_some]
  rfl

theorem read?_pointed {whole fraction exponent : List Char} {k : ℤ}
    (numeral : IsNumeral whole) (digits : ∀ c ∈ fraction, c.isDigit = true)
    (scale : WritesExponent exponent k)
    : read? (whole ++ '.' :: (fraction ++ exponent))
      = some (ofDigits (Digit.values 10 whole) (Digit.values 10 fraction) k) := by
  obtain ⟨noDigits, -, -⟩ := scale.apart
  have point : Digit.isDigit 10 '.' = false := by decide
  have all : ∀ c ∈ fraction, Digit.isDigit 10 c = true := fun c member => by
    rw [Digit.isDigit_ten, digits c member]
  have taken : (whole ++ '.' :: (fraction ++ exponent)).takeWhile (Digit.isDigit 10) = whole := by
    rw [List.takeWhile_append_of_pos numeral.all]
    simp [point]
  have dropped : (whole ++ '.' :: (fraction ++ exponent)).dropWhile (Digit.isDigit 10)
      = '.' :: (fraction ++ exponent) := by
    rw [List.dropWhile_append_of_pos numeral.all]
    simp [point]
  have takenFraction : (fraction ++ exponent).takeWhile (Digit.isDigit 10) = fraction := by
    rw [List.takeWhile_append_of_pos all, noDigits, List.append_nil]
  simp only [read?, taken, dropped, List.head?_cons, BEq.rfl, if_true, List.drop_one,
    List.tail_cons, takenFraction, List.drop_left, numeral.nonempty, if_false, scale.read,
    Option.map_some]

/-- What a text writes is what is read. -/
theorem Writes.read {text : List Char} {q : ℚ} (writes : Writes text q)
    : ∃ x, read? text = some x ∧ x.toRat = q := by
  cases writes with
  | whole numeral scale =>
      exact ⟨_, read?_whole numeral scale, toRat_ofDigits_nil _ _⟩
  | pointed numeral digits scale =>
      refine ⟨_, read?_pointed numeral digits scale, ?_⟩
      rw [toRat_ofDigits, Digit.length_values_of_isDigit digits]
      rfl

theorem Writes.unique {text : List Char} {q r : ℚ} (first : Writes text q)
    (second : Writes text r)
    : q = r := by
  obtain ⟨x, readFirst, rfl⟩ := first.read
  obtain ⟨y, readSecond, rfl⟩ := second.read
  rw [Option.some.inj (readFirst.symm.trans readSecond)]

end Decimal

end Numeral
