import Numeral.Proofs.Literal.Announcement

/-! Where literals begin: at every ASCII digit and nowhere else, whatever the options. The
leads begin with a digit too, and a decimal literal never turns a digit down.
-/

namespace Numeral

/-- What announces a literal is the zero of a lead or, without a lead, a digit. -/
theorem Radix.Announced.begins {radix : Radix} {separators : Bool} {text : List Char}
    (announced : radix.Announced separators text)
    : ∃ c ∈ text.head?, c.isDigit = true := by
  obtain ⟨gap, digit, rest, rfl, isDigit, allowed⟩ := announced
  cases radix with
  | binary => exact ⟨'0', rfl, by decide⟩
  | hexadecimal => exact ⟨'0', rfl, by decide⟩
  | decimal =>
      obtain rfl : gap = 0 := allowed.resolve_right fun led => led.2 rfl
      exact ⟨digit, rfl, isDigit⟩

namespace Options

/-- A literal begins exactly where a digit stands. -/
theorem literal?_isSome_iff (options : Options) (text : List Char)
    : (options.literal? text).isSome = true ↔ ∃ c ∈ text.head?, c.isDigit = true := by
  obtain ⟨radix, selects⟩ := options.exists_selects text
  rw [literal?_of_selects selects, Option.isSome_map, Radix.literal?_isSome_iff]
  constructor
  · exact Radix.Announced.begins
  · rintro ⟨c, head, digit⟩
    obtain ⟨rest, rfl⟩ := List.head?_eq_some_iff.mp head
    cases radix with
    | decimal => exact ⟨0, c, rest, rfl, digit, .inl rfl⟩
    | binary | hexadecimal => exact selects.2

theorem number?_isSome_iff (options : Options) (text : List Char)
    : (options.number? text).isSome = true ↔ ∃ c ∈ text.head?, c.isDigit = true := by
  rw [number?, Option.isSome_map, literal?_isSome_iff]

/-- A digit is no sign, so where a digit stands a signed number begins as well. -/
theorem signedNumber?_isSome_of_digit (options : Options) {text : List Char} {c : Char}
    (head : c ∈ text.head?) (digit : c.isDigit = true)
    : (options.signedNumber? text).isSome = true := by
  obtain ⟨rest, rfl⟩ := List.head?_eq_some_iff.mp (Option.mem_def.mp head)
  have unsigned := Sign.leading?_cons_of_isDigit digit rest
  rw [signedNumber?, unsigned, Option.isSome_map, Sign.length, List.drop_zero,
    number?_isSome_iff]
  exact ⟨c, rfl, digit⟩

end Options

end Numeral
