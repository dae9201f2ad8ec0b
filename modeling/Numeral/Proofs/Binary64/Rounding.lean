import Mathlib.Tactic.SplitIfs
import Numeral.Proofs.Binary64.Nearest

/-! The magnitude computed from a quotient is the quotient correctly rounded. On the grid that
the size of the quotient selects it is rounded to a whole number of steps, and no magnitude
outside that grid can be nearer than the end of the grid on its side.
-/

namespace Numeral.Binary64

-----------------------------------------------------------------------------------------
-- Whole numbers
-----------------------------------------------------------------------------------------

theorem div_le_roundHalfEven (numerator denominator : Nat)
    : numerator / denominator ≤ roundHalfEven numerator denominator := by
  simp only [roundHalfEven]
  split <;> omega

theorem roundHalfEven_le (numerator denominator : Nat)
    : roundHalfEven numerator denominator ≤ numerator / denominator + 1 := by
  simp only [roundHalfEven]
  split <;> omega

/-- The nearest whole number is half a one away at most, and even if it is that far. -/
theorem roundHalfEven_nearest (numerator : Nat) {denominator : Nat} (positive : 0 < denominator)
    : |(roundHalfEven numerator denominator : ℚ) - numerator / denominator| ≤ 1 / 2
      ∧ (|(roundHalfEven numerator denominator : ℚ) - numerator / denominator| = 1 / 2
          → roundHalfEven numerator denominator % 2 = 0) := by
  have positive' : (0 : ℚ) < denominator := by exact_mod_cast positive
  have quotient : (numerator : ℚ) / denominator
      = (numerator / denominator : Nat) + (numerator % denominator : Nat) / denominator := by
    rw [eq_comm, add_div' _ _ _ (ne_of_gt positive')]
    congr 1
    exact_mod_cast Nat.div_add_mod' numerator denominator
  have whole : (0 : ℚ) ≤ (numerator % denominator : Nat) / denominator := by positivity
  have halfway (half : ((numerator % denominator : Nat) : ℚ) / denominator = 1 / 2)
      : 2 * (numerator % denominator) = denominator := by
    rw [div_eq_div_iff (ne_of_gt positive') two_ne_zero] at half
    norm_cast at half
    omega
  simp only [roundHalfEven]
  rw [quotient]
  split
  next down =>
    have half : ((numerator % denominator : Nat) : ℚ) / denominator ≤ 1 / 2 := by
      rw [div_le_div_iff₀ positive' two_pos]
      norm_cast
      omega
    refine ⟨by grind, fun tie => ?_⟩
    have twice := halfway (by grind)
    omega
  next up =>
    have half : 1 / 2 ≤ ((numerator % denominator : Nat) : ℚ) / denominator := by
      rw [div_le_div_iff₀ two_pos positive']
      norm_cast
      omega
    have less : ((numerator % denominator : Nat) : ℚ) / denominator < 1 := by
      rw [div_lt_one positive']
      exact_mod_cast Nat.mod_lt numerator positive
    push_cast
    refine ⟨by grind, fun tie => ?_⟩
    have twice := halfway (by grind)
    omega

-----------------------------------------------------------------------------------------
-- Steps of a grid
-----------------------------------------------------------------------------------------

theorem distance_grid {k j : Nat} (q : ℚ) (top : j ≤ 2 ^ 53) (normal : k = 0 ∨ 2 ^ 52 ≤ j)
    : distance q (k * 2 ^ 52 + j) = |(j : ℚ) * 2 ^ k - q| := by
  rw [distance, unitsOf_grid top normal]
  push_cast
  rfl

/-- A magnitude is above the grid that begins at `k * 2 ^ 52`, below it or on it. -/
theorem grid_position (k other : Nat)
    : k * 2 ^ 52 + 2 ^ 53 < other
      ∨ (other < k * 2 ^ 52 + 2 ^ 52 ∧ k ≠ 0)
      ∨ ∃ i, other = k * 2 ^ 52 + i ∧ i ≤ 2 ^ 53 ∧ (k = 0 ∨ 2 ^ 52 ≤ i) := by
  by_cases off : k * 2 ^ 52 + 2 ^ 53 < other ∨ (other < k * 2 ^ 52 + 2 ^ 52 ∧ k ≠ 0)
  · tauto
  · exact Or.inr (Or.inr ⟨other - k * 2 ^ 52, by omega, by omega, by omega⟩)

/-- Half a step from one point of a grid is half a step at least from every other. -/
theorem half_step_le {k i j : Nat} {q : ℚ} (close : |(j : ℚ) * 2 ^ k - q| ≤ 2 ^ k / 2)
    (different : i ≠ j)
    : (2 : ℚ) ^ k / 2 ≤ |(i : ℚ) * 2 ^ k - q| := by
  have step : (0 : ℚ) < 2 ^ k := by positivity
  rcases Nat.lt_or_gt_of_ne different with less | more
  · have apart : ((i : ℚ) + 1) * 2 ^ k ≤ j * 2 ^ k := by
      gcongr
      exact_mod_cast less
    grind
  · have apart : ((j : ℚ) + 1) * 2 ^ k ≤ i * 2 ^ k := by
      gcongr
      exact_mod_cast more
    grind

/-- What is within half a step of a point of its grid is rounded to that point. -/
theorem NearestUpTo.of_grid {limit k j : Nat} {q : ℚ} (inside : k * 2 ^ 52 + j ≤ limit)
    (top : j ≤ 2 ^ 53) (normal : k = 0 ∨ 2 ^ 52 ≤ j)
    (low : k = 0 ∨ 2 ^ 52 * 2 ^ k ≤ q) (high : q ≤ 2 ^ 53 * 2 ^ k)
    (close : |(j : ℚ) * 2 ^ k - q| ≤ 2 ^ k / 2)
    (tie : |(j : ℚ) * 2 ^ k - q| = 2 ^ k / 2 → j % 2 = 0)
    : NearestUpTo limit q (k * 2 ^ 52 + j) := by
  have here := distance_grid q top normal
  -- On the grid itself the points are whole steps apart.
  have onGrid {i : Nat} (top : i ≤ 2 ^ 53) (normal : k = 0 ∨ 2 ^ 52 ≤ i)
      : distance q (k * 2 ^ 52 + j) ≤ distance q (k * 2 ^ 52 + i) := by
    rw [here, distance_grid q top normal]
    by_cases same : i = j
    · rw [same]
    · exact le_trans close (half_step_le close same)
  -- Off the grid the end of the grid on that side is nearer.
  have below {other : Nat} (less : other < k * 2 ^ 52 + 2 ^ 52) (positive : k ≠ 0)
      : distance q (k * 2 ^ 52 + j) < distance q other := by
    have end_ := onGrid (i := 2 ^ 52) (by omega) (Or.inr (Nat.le_refl _))
    rw [distance_grid q (by omega) (Or.inr (Nat.le_refl _))] at end_
    have beyond : (unitsOf other : ℚ) < 2 ^ 52 * 2 ^ k := by
      have order := unitsOf_strictMono less
      rw [unitsOf_grid (by omega) (Or.inr (Nat.le_refl _))] at order
      exact_mod_cast order
    have reached := low.resolve_left positive
    push_cast at end_
    simp only [distance] at end_ ⊢
    grind
  have above {other : Nat} (more : k * 2 ^ 52 + 2 ^ 53 < other)
      : distance q (k * 2 ^ 52 + j) < distance q other := by
    have end_ := onGrid (i := 2 ^ 53) (Nat.le_refl _) (Or.inr (by omega))
    rw [distance_grid q (Nat.le_refl _) (Or.inr (by omega))] at end_
    have beyond : (2 ^ 53 * 2 ^ k : ℚ) < unitsOf other := by
      have order := unitsOf_strictMono more
      rw [unitsOf_grid (Nat.le_refl _) (Or.inr (by omega))] at order
      exact_mod_cast order
    push_cast at end_
    simp only [distance] at end_ ⊢
    grind
  refine ⟨inside, fun other _ => ?_, fun other _ different same => ?_⟩
  · rcases grid_position k other with more | ⟨less, positive⟩ | ⟨i, rfl, top, normal⟩
    · exact le_of_lt (above more)
    · exact le_of_lt (below less positive)
    · exact onGrid top normal
  · rcases grid_position k other with more | ⟨less, positive⟩ | ⟨i, rfl, top', normal'⟩
    · exact absurd same (ne_of_gt (above more))
    · exact absurd same (ne_of_gt (below less positive))
    · have far := half_step_le close (i := i) (by omega)
      rw [here, distance_grid q top' normal'] at same
      have even := tie (by linarith)
      omega

-----------------------------------------------------------------------------------------
-- Quotients
-----------------------------------------------------------------------------------------

/-- The quotient lies on the grid that its size selects. -/
theorem quotient_bounds (quotient : Nat)
    : quotient < 2 ^ 53 * 2 ^ (quotient.log2 - 52)
      ∧ (quotient.log2 - 52 = 0 ∨ 2 ^ 52 * 2 ^ (quotient.log2 - 52) ≤ quotient) := by
  constructor
  · calc quotient
      _ < 2 ^ (quotient.log2 + 1) := Nat.lt_log2_self
      _ ≤ 2 ^ (53 + (quotient.log2 - 52)) := Nat.pow_le_pow_right two_pos (by omega)
      _ = 2 ^ 53 * 2 ^ (quotient.log2 - 52) := Nat.pow_add ..
  · rcases Nat.eq_zero_or_pos (quotient.log2 - 52) with zero | positive
    · exact Or.inl zero
    · have nonzero : quotient ≠ 0 := by
        rintro rfl
        simp at positive
      refine Or.inr ?_
      calc 2 ^ 52 * 2 ^ (quotient.log2 - 52)
        _ = 2 ^ (52 + (quotient.log2 - 52)) := (Nat.pow_add ..).symm
        _ = 2 ^ quotient.log2 := by rw [Nat.add_sub_cancel' (by omega)]
        _ ≤ quotient := Nat.log2_self_le nonzero

/-- The magnitude nearest to a quotient of units if the magnitudes had no end. -/
def unlimitedMagnitude (numerator denominator : Nat) : Nat :=
  let k := (numerator / denominator).log2 - fractionBits
  k * 2 ^ fractionBits + roundHalfEven numerator (denominator * 2 ^ k)

theorem NearestUpTo.of_unlimitedMagnitude (numerator : Nat) {denominator limit : Nat}
    (positive : 0 < denominator) (inside : unlimitedMagnitude numerator denominator ≤ limit)
    : NearestUpTo limit ((numerator : ℚ) / denominator)
        (unlimitedMagnitude numerator denominator) := by
  simp only [unlimitedMagnitude, fractionBits] at inside ⊢
  obtain ⟨high, low⟩ := quotient_bounds (numerator / denominator)
  -- From here on only that the quotient lies on its grid matters, not how the grid was found.
  generalize (numerator / denominator).log2 - 52 = k at inside high low ⊢
  have positive' : (0 : ℚ) < denominator := by exact_mod_cast positive
  have step : (0 : ℚ) < 2 ^ k := by positivity
  have floor : numerator / (denominator * 2 ^ k) = numerator / denominator / 2 ^ k :=
    (Nat.div_div_eq_div_mul ..).symm
  have floorLow := div_le_roundHalfEven numerator (denominator * 2 ^ k)
  have floorHigh := roundHalfEven_le numerator (denominator * 2 ^ k)
  rw [floor] at floorLow floorHigh
  obtain ⟨near, even⟩ := roundHalfEven_nearest numerator
    (Nat.mul_pos positive (Nat.two_pow_pos k))
  generalize roundHalfEven numerator (denominator * 2 ^ k) = j at *
  have scaled : |(j : ℚ) * 2 ^ k - numerator / denominator|
      = |(j : ℚ) - numerator / (denominator * 2 ^ k : Nat)| * 2 ^ k := by
    rw [← abs_of_pos step, ← abs_mul, abs_of_pos step, sub_mul]
    push_cast
    rw [div_mul_eq_div_div, div_mul_cancel₀ _ (ne_of_gt step)]
  have top : j ≤ 2 ^ 53 := by
    have below := (Nat.div_lt_iff_lt_mul (Nat.two_pow_pos k)).mpr high
    omega
  have normal : k = 0 ∨ 2 ^ 52 ≤ j := by
    refine low.imp_right fun low => Nat.le_trans ?_ floorLow
    exact (Nat.le_div_iff_mul_le (Nat.two_pow_pos k)).mpr low
  have begins : k = 0 ∨ 2 ^ 52 * 2 ^ k ≤ (numerator : ℚ) / denominator := by
    refine low.imp_right fun low => ?_
    rw [le_div_iff₀ positive']
    exact_mod_cast (Nat.le_div_iff_mul_le positive).mp low
  have ends : (numerator : ℚ) / denominator ≤ 2 ^ 53 * 2 ^ k := by
    rw [div_le_iff₀ positive']
    exact_mod_cast Nat.le_of_lt ((Nat.div_lt_iff_lt_mul positive).mp high)
  have close : |(j : ℚ) * 2 ^ k - numerator / denominator| ≤ 2 ^ k / 2 := by
    rw [scaled]
    linarith [mul_le_mul_of_nonneg_right near (le_of_lt step)]
  refine .of_grid inside top normal begins ends close fun tie => even ?_
  rw [scaled] at tie
  exact mul_right_cancel₀ (ne_of_gt step) (by linarith)

/-- The magnitude computed from a quotient of units is the quotient correctly rounded. -/
theorem nearest_nearestMagnitude (numerator : Nat) {denominator : Nat}
    (positive : 0 < denominator)
    : Nearest ((numerator : ℚ) / denominator) (nearestMagnitude numerator denominator) := by
  rcases le_or_gt (unlimitedMagnitude numerator denominator) infiniteMagnitude
    with finite | beyond
  · have same : nearestMagnitude numerator denominator
        = unlimitedMagnitude numerator denominator := Nat.min_eq_right finite
    rw [same]
    exact .of_unlimitedMagnitude numerator positive finite
  · have same : nearestMagnitude numerator denominator = infiniteMagnitude :=
      Nat.min_eq_left (Nat.le_of_lt beyond)
    rw [same]
    -- The quotient is nearer to a magnitude above infinity, so it is above infinity itself.
    apply NearestUpTo.of_ge
    have nearer := (NearestUpTo.of_unlimitedMagnitude numerator positive (Nat.le_refl _)).closest
      infiniteMagnitude (Nat.le_of_lt beyond)
    have order : (unitsOf infiniteMagnitude : ℚ)
        < unitsOf (unlimitedMagnitude numerator denominator) :=
      Nat.cast_lt.mpr (unitsOf_strictMono beyond)
    simp only [distance] at nearer
    grind

end Numeral.Binary64
