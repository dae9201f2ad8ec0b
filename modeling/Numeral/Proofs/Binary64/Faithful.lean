import Numeral.Proofs.Binary64.Unsigned

/-! Faithful rounding. A faithful result need not be the nearest one, but nothing lies between it
and the exact number: a number that can be given exactly is, and any other gives one of its two
neighbours. Rounding once more on a coarser grid keeps a result faithful, though not nearest.
-/

namespace Numeral.Binary64

/-- The magnitudes below this one are less than `q` units, and those above it are more. -/
structure Faithful (q : ℚ) (magnitude : Nat) : Prop where
  le_infinite : magnitude ≤ infiniteMagnitude
  below : ∀ other < magnitude, (unitsOf other : ℚ) < q
  above : ∀ other ≤ infiniteMagnitude, magnitude < other → q < unitsOf other

/-- Of the numbers further away from zero than the finite number `low` the next is `high`. It is
infinity if `low` is the largest finite number.
-/
structure IsNext (low high : Binary64) : Prop where
  finite : low.isFinite = true
  sign : high.negative = low.negative
  magnitude : high.magnitude = low.magnitude + 1

/-- The number is `q` if `q` is one, and if not one of the two numbers that `q` lies between. What
is too large for all of them is infinite.
-/
structure RoundsFaithfully (q : ℚ) (x : Binary64) : Prop where
  sign : x.negative = decide (q < 0)
  exact
    : ∀ y : Binary64, y.isFinite = true → y.toRat = q → x.isFinite = true ∧ x.toRat = q
  adjacent
    : |q| < 2 ^ 1024
      → (∀ y : Binary64, y.isFinite = true → y.toRat ≠ q)
      → ∃ low high : Binary64,
          low.IsNext high
          ∧ |low.toRat| < |q|
          ∧ (high.isFinite = true → |q| < |high.toRat|)
          ∧ (x = low ∨ x = high)
  overflow : 2 ^ 1024 ≤ |q| → x = infinity (decide (q < 0))

variable {q : ℚ} {magnitude other : Nat} {x : Binary64}

-----------------------------------------------------------------------------------------
-- Magnitudes
-----------------------------------------------------------------------------------------

/-- What is at least a certain magnitude is not rounded below it. -/
theorem NearestUpTo.ge_of_ge {limit bound : Nat} (nearest : NearestUpTo limit q magnitude)
    (inside : bound ≤ limit) (high : unitsOf bound ≤ q)
    : bound ≤ magnitude := by
  by_contra beyond
  have less : (unitsOf magnitude : ℚ) < unitsOf bound :=
    Nat.cast_lt.mpr (unitsOf_strictMono (Nat.lt_of_not_le beyond))
  have nearer := nearest.closest bound inside
  simp only [distance] at nearer
  grind

theorem Nearest.faithful (nearest : Nearest q magnitude)
    : Faithful q magnitude where
  le_infinite := nearest.le_limit
  below := by
    intro other less
    by_contra reached
    have inside := Nat.le_of_lt (Nat.lt_of_lt_of_le less nearest.le_limit)
    exact Nat.not_le.mpr less (nearest.le_of_le inside (not_lt.mp reached))
  above := by
    intro other inside more
    by_contra reached
    exact Nat.not_le.mpr more (nearest.ge_of_ge inside (not_lt.mp reached))

/-- A magnitude shifted up is one as long as it stays below the end. -/
theorem exists_shifted_magnitude {k : ℤ} (up : 0 ≤ k) (within : other ≤ infiniteMagnitude)
    (inside : (unitsOf other * 2 ^ k : ℚ) < unitsOf infiniteMagnitude)
    : ∃ shifted < infiniteMagnitude, (unitsOf shifted : ℚ) = unitsOf other * 2 ^ k := by
  obtain ⟨y, finite, -, units⟩ :=
    exists_shifted (x := ⟨false, other, Nat.lt_of_le_of_lt within infiniteMagnitude_lt⟩) up inside
  exact ⟨y.magnitude, of_decide_eq_true finite, units⟩

namespace Faithful

theorem of_unitsOf (inside : magnitude ≤ infiniteMagnitude)
    : Faithful (unitsOf magnitude) magnitude :=
  Nearest.faithful (.of_unitsOf inside)

/-- It is enough to look at the two neighbours. -/
theorem of_neighbours (inside : magnitude ≤ infiniteMagnitude)
    (below : ∀ less, magnitude = less + 1 → (unitsOf less : ℚ) < q)
    (above : magnitude < infiniteMagnitude → q < unitsOf (magnitude + 1))
    : Faithful q magnitude where
  le_infinite := inside
  below := by
    intro other less
    obtain ⟨before, rfl⟩ := Nat.exists_eq_succ_of_ne_zero (Nat.ne_of_gt (Nat.zero_lt_of_lt less))
    have order : (unitsOf other : ℚ) ≤ unitsOf before :=
      Nat.cast_le.mpr (unitsOf_strictMono.monotone (Nat.le_of_lt_succ less))
    exact lt_of_le_of_lt order (below before rfl)
  above := by
    intro other inside more
    have order : (unitsOf (magnitude + 1) : ℚ) ≤ unitsOf other :=
      Nat.cast_le.mpr (unitsOf_strictMono.monotone more)
    exact lt_of_lt_of_le (above (Nat.lt_of_lt_of_le more inside)) order

/-- What can be given exactly is. -/
theorem eq_of_unitsOf (faithful : Faithful q magnitude) (inside : other ≤ infiniteMagnitude)
    (exact : (unitsOf other : ℚ) = q)
    : magnitude = other := by
  rcases Nat.lt_trichotomy magnitude other with less | same | more
  · exact absurd (faithful.above other inside less) (not_lt.mpr (le_of_eq exact))
  · exact same
  · exact absurd (faithful.below other more) (not_lt.mpr (le_of_eq exact.symm))

theorem eq_infinite (faithful : Faithful q magnitude) (beyond : unitsOf infiniteMagnitude ≤ q)
    : magnitude = infiniteMagnitude := by
  refine Nat.le_antisymm faithful.le_infinite (Nat.le_of_not_lt fun less => ?_)
  exact absurd (faithful.above _ (Nat.le_refl _) less) (not_lt.mpr beyond)

theorem of_infinite (beyond : unitsOf infiniteMagnitude ≤ q)
    : Faithful q infiniteMagnitude :=
  Nearest.faithful (.of_ge beyond)

/-- What cannot be given exactly lies between two magnitudes, and this is one of them. -/
theorem exists_between (faithful : Faithful q magnitude) (inside : q < unitsOf infiniteMagnitude)
    (nonnegative : 0 ≤ q) (inexact : (unitsOf magnitude : ℚ) ≠ q)
    : ∃ low < infiniteMagnitude,
        (unitsOf low : ℚ) < q
        ∧ q < unitsOf (low + 1)
        ∧ (magnitude = low ∨ magnitude = low + 1) := by
  rcases lt_or_gt_of_ne inexact with less | more
  · have finite : magnitude < infiniteMagnitude := by
      refine Nat.lt_of_le_of_ne faithful.le_infinite fun same => ?_
      rw [same] at less
      exact lt_asymm less inside
    exact ⟨magnitude, finite, less, faithful.above _ finite (Nat.lt_succ_self _), .inl rfl⟩
  · have positive : magnitude ≠ 0 := by
      rintro rfl
      have zero : (unitsOf 0 : ℚ) = 0 := Nat.cast_eq_zero.mpr (by decide)
      exact not_lt.mpr nonnegative (zero ▸ more)
    obtain ⟨before, rfl⟩ := Nat.exists_eq_succ_of_ne_zero positive
    exact ⟨before, faithful.le_infinite, faithful.below _ (Nat.lt_succ_self _), more, .inr rfl⟩

/-- A number that has been rounded faithfully and is then shifted down and rounded again is as if it
had been shifted down at once: every point of the coarser grid is, shifted up, one of the finer.
-/
theorem shift_down {k : ℤ} (down : k ≤ 0) (finite : x.isFinite = true)
    (before : Faithful q x.magnitude) (after : Faithful (x.units * 2 ^ k) magnitude)
    : Faithful (q * 2 ^ k) magnitude := by
  have positive : (0 : ℚ) < 2 ^ (-k) := zpow_pos two_pos _
  have scaled (r : ℚ) : r * 2 ^ k = r / 2 ^ (-k) := by rw [zpow_neg, div_inv_eq_mul]
  rw [scaled] at after ⊢
  have inside : (x.units : ℚ) < unitsOf infiniteMagnitude := Nat.cast_lt.mpr (units_lt finite)
  refine ⟨after.le_infinite, fun other less => ?_, fun other within more => ?_⟩
  · have within := Nat.le_of_lt (Nat.lt_of_lt_of_le less after.le_infinite)
    have coarse := (lt_div_iff₀ positive).mp (after.below other less)
    obtain ⟨shifted, -, units⟩ :=
      exists_shifted_magnitude (k := -k) (by omega) within (lt_trans coarse inside)
    rw [← units] at coarse
    rw [lt_div_iff₀ positive, ← units]
    exact before.below shifted (unitsOf_strictMono.lt_iff_lt.mp (Nat.cast_lt.mp coarse))
  · have coarse := (div_lt_iff₀ positive).mp (after.above other within more)
    rw [div_lt_iff₀ positive]
    rcases lt_or_ge (unitsOf other * 2 ^ (-k) : ℚ) (unitsOf infiniteMagnitude) with few | many
    · obtain ⟨shifted, few, units⟩ := exists_shifted_magnitude (k := -k) (by omega) within few
      rw [← units] at coarse ⊢
      exact before.above shifted (Nat.le_of_lt few)
        (unitsOf_strictMono.lt_iff_lt.mp (Nat.cast_lt.mp coarse))
    · exact lt_of_lt_of_le
        (before.above _ (Nat.le_refl _) (of_decide_eq_true finite)) many

end Faithful

-----------------------------------------------------------------------------------------
-- Numbers
-----------------------------------------------------------------------------------------

theorem cast_unitsPerOne_pos
    : (0 : ℚ) < unitsPerOne :=
  Nat.cast_pos.mpr unitsPerOne_pos

theorem cast_unitsOf_infiniteMagnitude
    : (unitsOf infiniteMagnitude : ℚ) = 2 ^ 1024 * unitsPerOne := by
  rw [unitsOf_infiniteMagnitude, Nat.cast_mul, Nat.cast_pow, Nat.cast_two]

theorem cast_unitsOf_infiniteMagnitude'
    : (unitsOf infiniteMagnitude : ℚ) = 2 ^ (2098 : ℤ) := by
  rw [cast_unitsOf_infiniteMagnitude, cast_unitsPerOne, ← zpow_natCast, ← zpow_add₀ two_ne_zero]
  norm_num

theorem pow_lt_infinite {e : ℕ} (few : e < 2098)
    : 2 ^ e < unitsOf infiniteMagnitude := by
  rw [← Nat.cast_lt (α := ℚ), cast_unitsOf_infiniteMagnitude', Nat.cast_pow, Nat.cast_two,
    ← zpow_natCast]
  exact zpow_lt_zpow_right₀ one_lt_two (by omega)

theorem abs_toRat (x : Binary64)
    : |x.toRat| * unitsPerOne = x.units := by
  have size : |(x.signedUnits : ℚ)| = x.units := by
    rw [signedUnits]
    split <;> simp
  rw [toRat, abs_div, abs_of_pos cast_unitsPerOne_pos, div_mul_cancel₀ _ cast_unitsPerOne_ne_zero,
    size]

/-- A number is told by its sign and its absolute value. -/
theorem toRat_eq_of_units (sign : x.negative = decide (q < 0))
    (units : (x.units : ℚ) = |q| * unitsPerOne)
    : x.toRat = q := by
  rw [toRat, div_eq_iff cast_unitsPerOne_ne_zero, signedUnits, sign]
  by_cases negative : q < 0
  · rw [abs_of_neg negative] at units
    simp only [negative, decide_true, if_true]
    push_cast
    rw [units]
    ring
  · rw [abs_of_nonneg (not_lt.mp negative)] at units
    simp only [negative, decide_false, Bool.false_eq_true, if_false, Int.cast_natCast]
    exact units

theorem eq_of_magnitude {y : Binary64} (sign : x.negative = y.negative)
    (same : x.magnitude = y.magnitude)
    : x = y :=
  eq_of_units sign (congrArg unitsOf same)

/-- Rounding without regard to the sign rounds faithfully. -/
theorem RoundsFaithfully.of_faithful (sign : x.negative = decide (q < 0))
    (faithful : Faithful (|q| * unitsPerOne) x.magnitude)
    : RoundsFaithfully q x where
  sign := sign
  exact := by
    rintro y finite rfl
    rw [abs_toRat] at faithful
    have same := faithful.eq_of_unitsOf (Nat.le_of_lt (of_decide_eq_true finite)) rfl
    refine ⟨?_, toRat_eq_of_units sign ?_⟩
    · rwa [isFinite, same]
    · rw [abs_toRat, units, same, units]
  adjacent := by
    intro small inexact
    have inside : |q| * unitsPerOne < unitsOf infiniteMagnitude := by
      rw [cast_unitsOf_infiniteMagnitude]
      exact mul_lt_mul_of_pos_right small cast_unitsPerOne_pos
    have other : (unitsOf x.magnitude : ℚ) ≠ |q| * unitsPerOne := by
      intro same
      refine inexact x (decide_eq_true ?_) (toRat_eq_of_units sign same)
      rw [← same, Nat.cast_lt] at inside
      exact unitsOf_strictMono.lt_iff_lt.mp inside
    have nonnegative : 0 ≤ |q| * unitsPerOne :=
      mul_nonneg (abs_nonneg q) (le_of_lt cast_unitsPerOne_pos)
    obtain ⟨low, finite, less, more, here⟩ := faithful.exists_between inside nonnegative other
    have fits : low + 1 < Nat.pow 2 63 := Nat.lt_of_le_of_lt finite infiniteMagnitude_lt
    refine ⟨⟨x.negative, low, Nat.lt_of_succ_lt fits⟩, ⟨x.negative, low + 1, fits⟩,
      ⟨decide_eq_true finite, rfl, rfl⟩, ?_, fun _ => ?_,
      here.imp (eq_of_magnitude rfl) (eq_of_magnitude rfl)⟩
    · refine lt_of_mul_lt_mul_right ?_ (le_of_lt cast_unitsPerOne_pos)
      rw [abs_toRat]
      exact less
    · refine lt_of_mul_lt_mul_right ?_ (le_of_lt cast_unitsPerOne_pos)
      rw [abs_toRat]
      exact more
  overflow := by
    intro large
    have beyond : unitsOf infiniteMagnitude ≤ |q| * unitsPerOne := by
      rw [cast_unitsOf_infiniteMagnitude]
      exact mul_le_mul_of_nonneg_right large (le_of_lt cast_unitsPerOne_pos)
    exact eq_of_magnitude sign (faithful.eq_infinite beyond)

theorem RoundsFaithfully.of_unsigned (unsigned : x.Unsigned) (nonnegative : 0 ≤ q)
    (faithful : Faithful (q * unitsPerOne) x.magnitude)
    : RoundsFaithfully q x := by
  refine .of_faithful ?_ (by rwa [abs_of_nonneg nonnegative])
  rw [unsigned.positive]
  exact (decide_eq_false (not_lt.mpr nonnegative)).symm

end Numeral.Binary64
