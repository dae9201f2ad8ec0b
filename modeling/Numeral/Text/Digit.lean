/-! Digits of the bases up to sixteen. They are ASCII characters: a digit of another
script has no value here.
-/

namespace Numeral

/-- The value of a hexadecimal digit, in either case. -/
def Digit.hexadecimal? (c : Char) : Option Nat :=
  if '0' ≤ c ∧ c ≤ '9' then some (c.toNat - '0'.toNat)
  else if 'a' ≤ c ∧ c ≤ 'f' then some (c.toNat - 'a'.toNat + 10)
  else if 'A' ≤ c ∧ c ≤ 'F' then some (c.toNat - 'A'.toNat + 10)
  else none

/-- The value of a digit of `base`: a hexadecimal digit below the base. -/
def Digit.value? (base : Nat) (c : Char) : Option Nat :=
  (Digit.hexadecimal? c).filter (· < base)

def Digit.isDigit (base : Nat) (c : Char) : Bool :=
  (Digit.value? base c).isSome

/-- The values of the digits among `text`, in order. Other characters are passed over. -/
def Digit.values (base : Nat) (text : List Char) : List Nat :=
  text.filterMap (Digit.value? base)

/-- The natural number that `digits` write, most significant digit first. -/
def Digit.number (base : Nat) (digits : List Nat) : Nat :=
  digits.foldl (fun number digit => number * base + digit) 0

namespace Digit

theorem value?_lt {base : Nat} {c : Char} {digit : Nat}
    (found : value? base c = some digit)
    : digit < base := by
  simpa using (Option.filter_eq_some_iff.mp found).2

theorem between_zero_nine_iff (c : Char)
    : '0' ≤ c ∧ c ≤ '9' ↔ c.isDigit = true := by
  simp only [Char.isDigit, Char.le_def, Bool.and_eq_true, decide_eq_true_eq, ge_iff_le]

/-- The digits of base ten are the ASCII digits. -/
theorem value?_ten (c : Char)
    : value? 10 c = if c.isDigit then some (c.toNat - '0'.toNat) else none := by
  by_cases digit : c.isDigit = true
  · have range := Char.isDigit_iff_toNat.mp digit
    have small : c.toNat - '0'.toNat < 10 := by
      have width : '9'.toNat = '0'.toNat + 9 := by decide
      omega
    simp only [value?, hexadecimal?, (between_zero_nine_iff c).mpr digit, digit, and_self,
      if_true, Option.filter_some, decide_eq_true small]
  · have outside := mt (between_zero_nine_iff c).mp digit
    simp only [value?, hexadecimal?, outside, if_false, digit]
    split
    · simp
    · split <;> simp

theorem isDigit_ten (c : Char)
    : isDigit 10 c = c.isDigit := by
  rw [isDigit, value?_ten]
  cases c.isDigit <;> rfl

theorem value?_underscore (base : Nat)
    : value? base '_' = none := by
  have none : hexadecimal? '_' = none := by decide
  simp [value?, none]

theorem values_append (base : Nat) (left right : List Char)
    : values base (left ++ right) = values base left ++ values base right :=
  List.filterMap_append ..

theorem length_values_le (base : Nat) (text : List Char)
    : (values base text).length ≤ text.length :=
  List.length_filterMap_le ..

theorem length_values_of_isDigit {text : List Char} (digits : ∀ c ∈ text, c.isDigit = true)
    : (values 10 text).length = text.length := by
  rw [values, List.length_filterMap_eq_countP, List.countP_eq_length]
  intro c member
  rw [← isDigit, isDigit_ten, digits c member]

theorem values_eq_nil_iff (base : Nat) (text : List Char)
    : values base text = [] ↔ ∀ c ∈ text, isDigit base c = false := by
  simp [values, isDigit]

theorem lt_of_mem_values {base : Nat} {text : List Char} {digit : Nat}
    (member : digit ∈ values base text)
    : digit < base := by
  obtain ⟨c, _, found⟩ := List.mem_filterMap.mp member
  exact value?_lt found

/-- Separators write nothing. -/
theorem values_filter_ne_underscore (base : Nat) (text : List Char)
    : values base (text.filter (· != '_')) = values base text := by
  induction text with
  | nil => rfl
  | cons c rest ih =>
      by_cases separator : c = '_'
      · subst c
        simpa [values, value?_underscore] using ih
      · simp only [values] at ih
        simp [values, separator, List.filterMap_cons, ih]

/-- Digits are no separators. -/
theorem filter_ne_underscore {text : List Char} (digits : ∀ c ∈ text, c.isDigit = true)
    : text.filter (· != '_') = text := by
  apply List.filter_eq_self.mpr
  intro c member
  rw [bne_iff_ne]
  rintro rfl
  exact Bool.false_ne_true (digits '_' member)

end Digit

end Numeral
