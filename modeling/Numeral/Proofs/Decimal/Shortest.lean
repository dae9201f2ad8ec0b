import Numeral.Proofs.Decimal.Display

/-! The shortest decimal of a number reads back as the number. A candidate is tried before it is
taken, the exact value is there if none is taken, and leaving out zeros at the end changes nothing.
-/

namespace Numeral

open Binary64

namespace Decimal

theorem zpow_five_mul_two (k : ℤ)
    : (5 : ℚ) ^ k * (10 ^ (-k) * 2 ^ k) = 1 := by
  have ten : (5 : ℚ) * 2 = 10 := by norm_num
  rw [mul_left_comm, ← mul_zpow, ten, ← zpow_add₀ (by norm_num), neg_add_cancel, zpow_zero]

/-- The exact value of a magnitude is its number of units. -/
theorem toRat_ofMagnitude (magnitude : Nat)
    : (ofMagnitude magnitude).toRat * unitsPerOne = unitsOf magnitude := by
  have power {places : ℕ}
      (same : (ofMagnitude magnitude).coefficient = unitsOf magnitude * Nat.pow 5 places)
      : ((ofMagnitude magnitude).coefficient : ℚ) = unitsOf magnitude * 5 ^ (places : ℤ) := by
    rw [same, Nat.cast_mul, Nat.pow_eq, Nat.cast_pow, Nat.cast_ofNat, zpow_natCast]
  have same : (ofMagnitude magnitude).coefficient = unitsOf magnitude * Nat.pow 5 1074 := rfl
  have coefficient := power same
  rw [Nat.cast_ofNat] at coefficient
  have exponent : (ofMagnitude magnitude).exponent = -1074 := rfl
  rw [toRat, coefficient, exponent, cast_unitsPerOne, mul_assoc, mul_assoc, zpow_five_mul_two,
    mul_one]

theorem nearestMagnitude_ofMagnitude {magnitude : Nat} (inside : magnitude ≤ infiniteMagnitude)
    : (ofMagnitude magnitude).nearestMagnitude = magnitude := by
  have nearest := (ofMagnitude magnitude).nearest_nearestMagnitude
  rw [toRat_ofMagnitude] at nearest
  exact nearest.unique (.of_unitsOf inside)

/-- By induction on the zeros that are left out, each of which stands for one place. -/
theorem toRat_trim (x : Decimal)
    : x.trim.toRat = x.toRat := by
  fun_induction trim x with
  | case1 x zero => simp [toRat, zero]
  | case2 x nonzero multiple ih =>
      have exact : (x.coefficient : ℚ) = (x.coefficient / 10 : ℕ) * 10 := by
        exact_mod_cast (Nat.div_mul_cancel (Nat.dvd_of_mod_eq_zero multiple)).symm
      rw [ih, toRat, toRat, exact, zpow_add_one₀ (by norm_num)]
      ring
  | case3 x nonzero ended => rfl

/-- A neighbour is taken only if it reads back. -/
theorem nearestMagnitude_of_readingBack? {magnitude : Nat} {below above x : Decimal}
    {belowIsNearer : Bool} (found : readingBack? magnitude below above belowIsNearer = some x)
    : x.nearestMagnitude = magnitude := by
  unfold readingBack? at found
  split at found
  next belowReads aboveReads =>
    split at found
    · obtain rfl := Option.some.inj found
      exact eq_of_beq belowReads
    · obtain rfl := Option.some.inj found
      exact eq_of_beq aboveReads
  next belowReads _ =>
    obtain rfl := Option.some.inj found
    exact eq_of_beq belowReads
  next _ aboveReads =>
    obtain rfl := Option.some.inj found
    exact eq_of_beq aboveReads
  next => contradiction

theorem nearestMagnitude_shortest {magnitude : Nat} (inside : magnitude ≤ infiniteMagnitude)
    : (shortest magnitude).nearestMagnitude = magnitude := by
  rw [shortest, nearestMagnitude_congr (toRat_trim _)]
  cases tried : (List.range 17).findSome? fun n => neighbour? magnitude (n + 1) with
  | none => rw [Option.getD_none, nearestMagnitude_ofMagnitude inside]
  | some x =>
      obtain ⟨count, -, found⟩ := List.exists_of_findSome?_eq_some tried
      rw [Option.getD_some]
      exact nearestMagnitude_of_readingBack? found

theorem scaleByTen_zero (x : Decimal)
    : x.scaleByTen 0 = x := by
  simp [scaleByTen]

end Decimal

namespace Binary64

variable {x : Binary64}

theorem toBinary64_shortest (finite : x.isFinite = true)
    : (Decimal.shortest x.magnitude).toBinary64 x.negative = x := by
  have inside : x.magnitude ≤ infiniteMagnitude := Nat.le_of_lt (of_decide_eq_true finite)
  have reads := Decimal.nearestMagnitude_shortest inside
  generalize Decimal.shortest x.magnitude = shortest at reads
  simp only [Decimal.toBinary64, reads]

/-- What is displayed is parsed as the number it is displayed for. -/
theorem parse?_display_self (finite : x.isFinite = true)
    : parse? x.display = some x := by
  have accepts := (Decimal.writesPlain_write (Decimal.shortest x.magnitude)).accepts .absent
    x.negative
  rw [List.append_nil, ← display_of_isFinite finite, zpow_zero, mul_one] at accepts
  rw [accepts.parse, toBinary64_shortest finite]

/-- Scaling by no power of ten gives the number back, though it is displayed and parsed for it. -/
theorem scaleByTen_zero (finite : x.isFinite = true)
    : x.scaleByTen 0 = x := by
  rw [scaleByTen, if_pos finite, Decimal.scaleByTen_zero, toBinary64_shortest finite]

theorem scaleByTwo_zero (x : Binary64)
    : x.scaleByTwo 0 = x := by
  rw [scaleByTwo, if_pos (.inl rfl)]

end Binary64

end Numeral
