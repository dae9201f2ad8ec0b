import Mathlib.Algebra.Group.Nat.Defs
import Numeral.Text.Digit

/-! What digits write by their places: those that follow move a number up, and all of them
together stay below the place before them.
-/

namespace Numeral.Digit

theorem foldl_number (base start : Nat) (digits : List Nat)
    : digits.foldl (fun number digit => number * base + digit) start
      = start * base ^ digits.length + number base digits := by
  induction digits generalizing start with
  | nil => simp [number]
  | cons digit rest ih =>
      have first : number base (digit :: rest)
          = digit * base ^ rest.length + number base rest := by
        simpa [number] using ih (0 * base + digit)
      rw [List.foldl_cons, ih, first, List.length_cons, Nat.pow_succ]
      grind

/-- Digits that follow move a number to higher places. -/
theorem number_append (base : Nat) (left right : List Nat)
    : number base (left ++ right)
      = number base left * base ^ right.length + number base right := by
  rw [number, List.foldl_append, foldl_number]
  rfl

/-- Digits write less than one at the place before them. -/
theorem number_lt_pow {base : Nat} {digits : List Nat}
    (small : ∀ digit ∈ digits, digit < base)
    : number base digits < base ^ digits.length := by
  induction digits with
  | nil => simp [number]
  | cons digit rest ih =>
      have first : digit < base := small digit (by simp)
      have later := ih (fun digit member => small digit (by simp [member]))
      calc number base (digit :: rest)
        _ = digit * base ^ rest.length + number base rest := by
          simpa [number] using number_append base [digit] rest
        _ < (digit + 1) * base ^ rest.length := by rw [Nat.add_mul]; omega
        _ ≤ base * base ^ rest.length := Nat.mul_le_mul_right _ first
        _ = base ^ (digit :: rest).length := by rw [List.length_cons, Nat.pow_succ, Nat.mul_comm]

end Numeral.Digit
