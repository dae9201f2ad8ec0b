import Numeral.Proofs.Literal.Grammar

/-! What the exponent of a literal is: the integer that is written, kept within the limit on
either side of zero.
-/

namespace Numeral.Marker

open Decimal (IsNumeral natural)

/-- The exponent that is meant by `k`. -/
def clamp (k : ℤ) : ℤ :=
  max (-limit) (min limit k)

theorem clamp_of_le {k : ℤ} (low : k ≤ -limit)
    : clamp k = -limit := by
  simp only [clamp, limit] at low ⊢
  omega

theorem clamp_of_ge {k : ℤ} (high : limit ≤ k)
    : clamp k = limit := by
  simp only [clamp, limit] at high ⊢
  omega

theorem clamp_of_between {k : ℤ} (low : -limit ≤ k) (high : k ≤ limit)
    : clamp k = k := by
  simp only [clamp, limit] at low high ⊢
  omega

/-- Once the limit is reached no digit leads back, so that it is enough to look at the end. -/
theorem saturate_eq_min (digits : List Nat)
    : saturate digits = min limit (Digit.number 10 digits) := by
  have step (digits : List Nat) (start : Nat)
      : digits.foldl (fun number digit => min limit (10 * number + digit)) (min limit start)
        = min limit (digits.foldl (fun number digit => number * 10 + digit) start) := by
    induction digits generalizing start with
    | nil => rfl
    | cons digit rest ih =>
        have once : min limit (10 * min limit start + digit) = min limit (start * 10 + digit) := by
          simp only [limit]
          omega
        rw [List.foldl_cons, List.foldl_cons, once, ih]
  exact step digits 0

theorem applyInt_saturate (sign : Option Sign) (digits : List Char)
    : Sign.applyInt sign (saturate (Digit.values 10 digits))
      = clamp (Sign.applyInt sign (natural digits)) := by
  rw [saturate_eq_min]
  rcases sign with _ | _ | _ <;>
    simp only [Sign.applyInt, Sign.apply, clamp, limit, natural] <;> omega

theorem exponent?_spelled {marker : Marker} {text : List Char} {lexeme : Lexeme Int}
    (found : marker.exponent? text = some lexeme) (sound : lexeme.fault = none)
    : ∃ letter sign digits rest,
        text = letter :: (Sign.written sign ++ digits) ++ rest
        ∧ marker.hasLetter letter = true
        ∧ IsNumeral digits
        ∧ lexeme.length = (letter :: (Sign.written sign ++ digits)).length
        ∧ lexeme.value = clamp (Sign.applyInt sign (natural digits)) := by
  obtain ⟨body, rest, rfl, spells⟩ := exponent?_eq_some found
  have length := spells.length_eq
  cases spells with
  | @digits letter sign digits _ marked present isRun =>
      have numeral : IsNumeral digits := by
        refine ⟨present, fun c member => ?_⟩
        rw [← Digit.isDigit_ten, isRun.inside c member]
      exact ⟨letter, sign, digits, rest, rfl, marked, numeral, length,
        applyInt_saturate sign digits⟩
  | bare => contradiction

/-- The exponent behind a mantissa, whichever marker it has. -/
theorem suffix?_spelled {text : List Char} {lexeme : Lexeme (Marker × Int)}
    (found : suffix? text = some lexeme) (sound : lexeme.fault = none)
    : ∃ marker letter sign digits rest,
        text = letter :: (Sign.written sign ++ digits) ++ rest
        ∧ marker.hasLetter letter = true
        ∧ IsNumeral digits
        ∧ lexeme.length = (letter :: (Sign.written sign ++ digits)).length
        ∧ lexeme.value = (marker, clamp (Sign.applyInt sign (natural digits))) := by
  obtain ⟨marker, exponent, inner, rfl⟩ := suffix?_eq_some found
  obtain ⟨letter, sign, digits, rest, spelled, marked, numeral, length, value⟩ :=
    exponent?_spelled inner sound
  refine ⟨marker, letter, sign, digits, rest, spelled, marked, numeral, length, ?_⟩
  rw [Lexeme.value_map, value]

end Numeral.Marker
