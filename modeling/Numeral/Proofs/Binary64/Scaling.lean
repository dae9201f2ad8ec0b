import Numeral.Proofs.Binary64.Faithful

/-! Scaling by powers of two, turn by turn. Going up nothing is rounded until the number overflows.
Going down a number may be rounded in several turns once it is subnormal, and is rounded faithfully
all the same; where a single turn rounds it, it is rounded correctly.
-/

namespace Numeral.Binary64

/-- From `x` with the exponent `k` left scaling comes to `y`. Each multiplication on the way is told
by the exponent that was left before it.
-/
inductive ScalingRun : Binary64 → ℤ → List ℤ → Binary64 → Prop
  | done {x k} (finished : k = 0 ∨ x.isZero ∨ ¬ x.isFinite)
    : ScalingRun x k [] x
  | turn {x k remaining y} (unfinished : ¬ (k = 0 ∨ x.isZero ∨ ¬ x.isFinite))
    (rest : ScalingRun (x.mul (powerOfTwo (scalingStep k))) (k - scalingStep k) remaining y)
    : ScalingRun x k (k :: remaining) y

/-- The exponent fits into 32 bits with a sign. -/
def IsInt32 (k : ℤ) : Prop :=
  -2147483648 ≤ k ∧ k ≤ 2147483647

/-- One turn with the exponent `k` left: it takes a part of the exponent that leaves the rest
between it and zero, and multiplies by the normal number with these bits, which is the power of two.
-/
structure TurnFits (k : ℤ) : Prop where
  towardsZero : (0 < scalingStep k ∧ scalingStep k ≤ k) ∨ (k ≤ scalingStep k ∧ scalingStep k < 0)
  fits : IsInt32 (k - scalingStep k)
  normal : -1022 ≤ scalingStep k ∧ scalingStep k ≤ 1023
  multiplier
    : powerOfTwo (scalingStep k) = ofBits (.ofNat ((scalingStep k + 1023).toNat * 2 ^ 52))
  finite : (powerOfTwo (scalingStep k)).isFinite = true
  value : (powerOfTwo (scalingStep k)).toRat = 2 ^ scalingStep k

/-- What scaling `x` by `2 ^ k` does and what it gives. -/
structure Scaling (x : Binary64) (k : ℤ) : Prop where
  turns
    : ∃ remaining,
        ScalingRun x k remaining (x.scaleByTwo k)
        ∧ remaining.length ≤ 3
        ∧ ∀ left ∈ remaining, TurnFits left
  unchanged : x.isFinite = false ∨ x.isZero = true → x.scaleByTwo k = x
  sign : (x.scaleByTwo k).negative = x.negative
  faithful
    : x.isFinite = true
      → x.isZero = false
      → RoundsFaithfully (x.toRat * 2 ^ k) (x.scaleByTwo k)
  inexact
    : x.isFinite = true
      → (∀ y : Binary64, y.isFinite = true → y.toRat ≠ x.toRat * 2 ^ k)
      → |x.toRat * 2 ^ k| < 2 ^ 1024
      → |x.toRat * 2 ^ k| < 2 ^ (-1022 : ℤ)
  nearest
    : x.isFinite = true
      → x.isZero = false
      → -1000 ≤ k ∨ (-2000 ≤ k ∧ 2 ^ (-22 : ℤ) ≤ |x.toRat|)
      → Rounds (x.toRat * 2 ^ k) (x.scaleByTwo k)

variable {x y : Binary64} {k : ℤ} {remaining : List ℤ}

-----------------------------------------------------------------------------------------
-- One multiplication
-----------------------------------------------------------------------------------------

theorem cast_units_powerOfTwo (low : -1022 ≤ k) (high : k ≤ 1023)
    : ((powerOfTwo k).units : ℚ) = 2 ^ k * unitsPerOne := by
  rw [units_powerOfTwo low high, Nat.cast_pow, Nat.cast_two, ← zpow_natCast,
    Int.toNat_of_nonneg (by omega), zpow_add₀ two_ne_zero, cast_unitsPerOne]

theorem negative_rounded (negative : Bool) (numerator denominator : Nat)
    : (rounded negative numerator denominator).negative = negative := rfl

theorem nearest_rounded (negative : Bool) (numerator : Nat) {denominator : Nat}
    (positive : 0 < denominator)
    : Nearest ((numerator : ℚ) / denominator) (rounded negative numerator denominator).magnitude :=
  nearest_nearestMagnitude numerator positive

/-- A finite number times a normal power of two is rounded once. -/
theorem mul_powerOfTwo_nearest (low : -1022 ≤ k) (high : k ≤ 1023) (finite : x.isFinite = true)
    : (x.mul (powerOfTwo k)).negative = x.negative
      ∧ Nearest (x.units * 2 ^ k) (x.mul (powerOfTwo k)).magnitude := by
  have sign : (x.negative != (powerOfTwo k).negative) = x.negative := Bool.bne_false _
  have quotient : ((x.units * (powerOfTwo k).units : ℕ) : ℚ) / unitsPerOne = x.units * 2 ^ k := by
    rw [Nat.cast_mul, cast_units_powerOfTwo low high, ← mul_assoc,
      mul_div_cancel_right₀ _ cast_unitsPerOne_ne_zero]
  have nearest := nearest_rounded x.negative (x.units * (powerOfTwo k).units) unitsPerOne_pos
  rw [quotient] at nearest
  rw [mul_of_finite finite (isFinite_powerOfTwo high), sign]
  exact ⟨negative_rounded .., nearest⟩

/-- Going up the product is exact, or it has overflown. -/
theorem mul_powerOfTwo_up (up : 0 ≤ k) (high : k ≤ 1023) (finite : x.isFinite = true)
    : ((x.mul (powerOfTwo k)).isFinite = true
        ∧ ((x.mul (powerOfTwo k)).units : ℚ) = x.units * 2 ^ k)
      ∨ ((x.mul (powerOfTwo k)).magnitude = infiniteMagnitude
        ∧ unitsOf infiniteMagnitude ≤ (x.units * 2 ^ k : ℚ)) := by
  rcases lt_or_ge (x.units * 2 ^ k : ℚ) (unitsOf infiniteMagnitude) with inside | beyond
  · obtain ⟨z, zFinite, sign, units⟩ := exists_shifted up inside
    rw [mul_powerOfTwo_eq (by omega) high finite zFinite sign units]
    exact .inl ⟨zFinite, units⟩
  · have nearest := (mul_powerOfTwo_nearest (by omega) high finite).2
    exact .inr ⟨nearest.faithful.eq_infinite beyond, beyond⟩

theorem isFinite_mul_down (low : -1022 ≤ k) (down : k ≤ 0) (finite : x.isFinite = true)
    : (x.mul (powerOfTwo k)).isFinite = true :=
  isFinite_mul_of_le_one finite (isFinite_powerOfTwo (by omega)) (units_powerOfTwo_le low down)

theorem units_mul_le (x : Binary64) (down : k ≤ 0)
    : (x.units * 2 ^ k : ℚ) ≤ x.units :=
  mul_le_of_le_one_right (Nat.cast_nonneg _) (zpow_le_one_of_nonpos₀ one_le_two down)

/-- What is still normal when it is scaled is not rounded. -/
theorem exists_scaled (normal : 2 ^ (52 : ℤ) ≤ (x.units * 2 ^ k : ℚ))
    (inside : (x.units * 2 ^ k : ℚ) < unitsOf infiniteMagnitude)
    : ∃ y : Binary64,
        y.isFinite = true ∧ y.negative = x.negative ∧ (y.units : ℚ) = x.units * 2 ^ k := by
  obtain ⟨e, j, grid, few, least⟩ := exists_grid x.magnitude
  have units : (x.units * 2 ^ k : ℚ) = j * 2 ^ (e + k) := by
    rw [Binary64.units, grid, unitsOf_grid (Nat.le_of_lt few) least, Nat.cast_mul, Nat.cast_pow,
      Nat.cast_two, mul_assoc, ← zpow_natCast, ← zpow_add₀ two_ne_zero]
  rw [units] at normal inside ⊢
  have place : 0 ≤ e + k := by
    by_contra below
    have bits : (j : ℚ) < 2 ^ 53 := by exact_mod_cast few
    have small : (2 : ℚ) ^ (e + k) ≤ 2 ^ (-1 : ℤ) := zpow_le_zpow_right₀ one_le_two (by omega)
    have half : (j : ℚ) * 2 ^ (e + k) < 2 ^ 53 * 2 ^ (-1 : ℤ) :=
      mul_lt_mul bits small (zpow_pos two_pos _) (by positivity)
    norm_num at half normal
    linarith
  obtain ⟨count, same⟩ := Int.eq_ofNat_of_zero_le place
  have shifted : (j * 2 ^ (e + k) : ℚ) = (j * 2 ^ count : ℕ) := by
    rw [same, zpow_natCast, Nat.cast_mul, Nat.cast_pow, Nat.cast_two]
  rw [shifted] at inside ⊢
  obtain ⟨y, finite, sign, exact⟩ := exists_number x.negative few (Nat.cast_lt.mp inside)
  exact ⟨y, finite, sign, congrArg Nat.cast exact⟩

/-- Going down by `2 ^ 1000` a small number comes to be zero, and a larger one shrinks. -/
theorem units_mul_down (finite : x.isFinite = true) {a : ℕ} (few : a ≤ 2098)
    (small : (x.units : ℚ) ≤ 2 ^ a)
    (nonzero : ¬ (x.mul (powerOfTwo (-1000))).isZero = true)
    : 999 ≤ a ∧ ((x.mul (powerOfTwo (-1000))).units : ℚ) ≤ 2 ^ (a - 1000) := by
  have nearest := (mul_powerOfTwo_nearest (k := -1000) (by omega) (by omega) finite).2
  have shrunk : (x.units * 2 ^ (-1000 : ℤ) : ℚ) ≤ 2 ^ ((a : ℤ) - 1000) := by
    rw [sub_eq_add_neg, zpow_add₀ two_ne_zero, zpow_natCast]
    exact mul_le_mul_of_nonneg_right small (zpow_pos two_pos _).le
  constructor
  · have half : 1 / 2 ≤ (x.units * 2 ^ (-1000 : ℤ) : ℚ) := by
      by_contra less
      have zero := nearest.unique
        (.zero_of_le (mul_nonneg (Nat.cast_nonneg _) (zpow_pos two_pos _).le) (not_le.mp less).le)
      exact nonzero (beq_iff_eq.mpr zero)
    have places : (2 : ℚ) ^ (-1 : ℤ) ≤ 2 ^ ((a : ℤ) - 1000) :=
      le_trans (by norm_num) (le_trans half shrunk)
    have order := (zpow_le_zpow_iff_right₀ one_lt_two).mp places
    omega
  · have end_ : 1 * 2 ^ (a - 1000) < unitsOf infiniteMagnitude := by
      rw [Nat.one_mul]
      exact pow_lt_infinite (by omega)
    obtain ⟨bound, inside, units⟩ := exists_magnitude (by norm_num) end_
    have reached : (x.units * 2 ^ (-1000 : ℤ) : ℚ) ≤ unitsOf bound := by
      rw [units, Nat.one_mul, Nat.cast_pow, Nat.cast_two, ← zpow_natCast]
      exact le_trans shrunk (zpow_le_zpow_right₀ one_le_two (by omega))
    have within := unitsOf_strictMono.monotone (nearest.le_of_le (Nat.le_of_lt inside) reached)
    rw [units, Nat.one_mul] at within
    exact_mod_cast within

-----------------------------------------------------------------------------------------
-- The result
-----------------------------------------------------------------------------------------

theorem scalingStep_normal (k : ℤ)
    : -1022 ≤ scalingStep k ∧ scalingStep k ≤ 1023 := by
  simp only [scalingStep]
  omega

theorem isFinite_of_unfinished (unfinished : ¬ (k = 0 ∨ x.isZero ∨ ¬ x.isFinite))
    : x.isFinite = true := by
  by_contra infinite
  exact unfinished (.inr (.inr infinite))

theorem scaleByTwo_of_finished (finished : k = 0 ∨ x.isZero ∨ ¬ x.isFinite)
    : x.scaleByTwo k = x := by
  rw [scaleByTwo, if_pos finished]

theorem units_of_isZero (zero : x.isZero = true)
    : x.units = 0 := by
  rw [units, beq_iff_eq.mp zero]
  rfl

theorem isZero_of_units (nothing : x.units = 0)
    : x.isZero = true := by
  have zero : unitsOf 0 = 0 := by decide
  exact beq_iff_eq.mpr (unitsOf_strictMono.injective (nothing.trans zero.symm))

/-- Nothing is left to do for a number that is finished. -/
theorem units_of_finished (finished : k = 0 ∨ x.isZero ∨ ¬ x.isFinite) (finite : x.isFinite = true)
    : (x.units * 2 ^ k : ℚ) = unitsOf x.magnitude := by
  rcases finished with rfl | zero | infinite
  · rw [zpow_zero, mul_one, units]
  · have nothing := units_of_isZero zero
    rw [← units, nothing, Nat.cast_zero, zero_mul]
  · exact (infinite finite).elim

theorem negative_scaleByTwo (x : Binary64) (k : ℤ)
    : (x.scaleByTwo k).negative = x.negative := by
  induction x, k using scaleByTwo.induct with
  | case1 x k done => rw [scaleByTwo_of_finished done]
  | case2 x k unfinished ih =>
      obtain ⟨low, high⟩ := scalingStep_normal k
      rw [scaleByTwo, if_neg unfinished, ih]
      exact (mul_powerOfTwo_nearest low high (isFinite_of_unfinished unfinished)).1

/-- By induction on the turns. Going up each is exact unless it overflows, and going down each lies
on a finer grid than the result.
-/
theorem faithful_scaleByTwo (finite : x.isFinite = true)
    : Faithful (x.units * 2 ^ k) (x.scaleByTwo k).magnitude := by
  induction x, k using scaleByTwo.induct with
  | case1 x k done =>
      rw [scaleByTwo_of_finished done, units_of_finished done finite]
      exact .of_unitsOf (Nat.le_of_lt (of_decide_eq_true finite))
  | case2 x k unfinished ih =>
      obtain ⟨low, high⟩ := scalingStep_normal k
      have rest : (x.units * 2 ^ scalingStep k * 2 ^ (k - scalingStep k) : ℚ)
          = x.units * 2 ^ k := by
        rw [mul_assoc, ← zpow_add₀ two_ne_zero, add_sub_cancel]
      rw [scaleByTwo, if_neg unfinished]
      rcases scalingStep_between k with ⟨up, short⟩ | ⟨short, down⟩
      · rcases mul_powerOfTwo_up up high finite with ⟨still, exact⟩ | ⟨infinite, beyond⟩
        · have after := ih still
          rwa [exact, rest] at after
        · have ended : ¬ (x.mul (powerOfTwo (scalingStep k))).isFinite = true := by
            simp [isFinite, infinite]
          rw [scaleByTwo_of_finished (.inr (.inr ended)), infinite]
          refine .of_infinite (le_trans beyond ?_)
          gcongr
          exact one_le_two
      · have still := isFinite_mul_down low down finite
        have before := (mul_powerOfTwo_nearest low high finite).2.faithful
        rw [← rest]
        exact before.shift_down (by omega) still (ih still)

/-- Going up the result is the nearest, and so it is if one turn takes all of the exponent. -/
theorem nearest_scaleByTwo (finite : x.isFinite = true) (short : -1000 ≤ k)
    : Nearest (x.units * 2 ^ k) (x.scaleByTwo k).magnitude := by
  have faithful := faithful_scaleByTwo (k := k) finite
  rcases le_or_gt 0 k with up | down
  · rcases lt_or_ge (x.units * 2 ^ k : ℚ) (unitsOf infiniteMagnitude) with inside | beyond
    · obtain ⟨y, yFinite, sign, exact⟩ := exists_shifted up inside
      rw [scaleByTwo_eq finite yFinite sign exact, ← exact]
      exact .of_unitsOf (Nat.le_of_lt (of_decide_eq_true yFinite))
    · rw [faithful.eq_infinite beyond]
      exact .of_ge beyond
  · by_cases finished : k = 0 ∨ x.isZero ∨ ¬ x.isFinite
    · rw [scaleByTwo_of_finished finished, units_of_finished finished finite]
      exact .of_unitsOf (Nat.le_of_lt (of_decide_eq_true finite))
    · have all : scalingStep k = k := by
        simp only [scalingStep]
        omega
      rw [scaleByTwo, if_neg finished, all, scaleByTwo_of_finished (.inl (sub_self k))]
      exact (mul_powerOfTwo_nearest (by omega) (by omega) finite).2

/-- So it is in two turns as well if the first leaves a normal number. -/
theorem nearest_scaleByTwo_of_normal (finite : x.isFinite = true) (short : -2000 ≤ k)
    (large : 2 ^ (1052 : ℤ) ≤ (x.units : ℚ))
    : Nearest (x.units * 2 ^ k) (x.scaleByTwo k).magnitude := by
  rcases le_or_gt (-1000) k with near | far
  · exact nearest_scaleByTwo finite near
  have step : scalingStep k = -1000 := by
    simp only [scalingStep]
    omega
  have unfinished : ¬ (k = 0 ∨ x.isZero ∨ ¬ x.isFinite) := by
    rintro (rfl | zero | infinite)
    · omega
    · rw [units_of_isZero zero, Nat.cast_zero] at large
      exact absurd large (not_le.mpr (zpow_pos two_pos _))
    · exact infinite finite
  have normal : 2 ^ (52 : ℤ) ≤ (x.units * 2 ^ (-1000 : ℤ) : ℚ) := by
    calc (2 : ℚ) ^ (52 : ℤ)
      _ = 2 ^ (1052 : ℤ) * 2 ^ (-1000 : ℤ) := by
        rw [← zpow_add₀ two_ne_zero]
        norm_num
      _ ≤ x.units * 2 ^ (-1000 : ℤ) := mul_le_mul_of_nonneg_right large (zpow_pos two_pos _).le
  have inside : (x.units * 2 ^ (-1000 : ℤ) : ℚ) < unitsOf infiniteMagnitude :=
    lt_of_le_of_lt (units_mul_le x (by omega)) (Nat.cast_lt.mpr (units_lt finite))
  obtain ⟨z, zFinite, sign, exact⟩ := exists_scaled normal inside
  have rest : (x.units * 2 ^ k : ℚ) = z.units * 2 ^ (k - -1000) := by
    rw [exact, mul_assoc, ← zpow_add₀ two_ne_zero, add_sub_cancel]
  rw [scaleByTwo, if_neg unfinished, step,
    mul_powerOfTwo_eq (by omega) (by omega) finite zFinite sign exact, rest]
  exact nearest_scaleByTwo zFinite (by omega)

-----------------------------------------------------------------------------------------
-- The turns
-----------------------------------------------------------------------------------------

theorem turnFits (nonzero : k ≠ 0) (range : IsInt32 k)
    : TurnFits k := by
  obtain ⟨least, most⟩ := range
  obtain ⟨low, high⟩ := scalingStep_normal k
  have step : (0 < scalingStep k ∧ scalingStep k ≤ k)
      ∨ (k ≤ scalingStep k ∧ scalingStep k < 0) := by
    simp only [scalingStep]
    omega
  refine
    { towardsZero := step
      fits := ⟨by omega, by omega⟩
      normal := ⟨low, high⟩
      multiplier := ?_
      finite := isFinite_powerOfTwo high
      value := ?_ }
  · have bits : (UInt64.ofNat ((scalingStep k + 1023).toNat * 2 ^ 52)).toNat
        = (scalingStep k + 1023).toNat * 2 ^ 52 := by
      rw [UInt64.toNat_ofNat']
      omega
    refine eq_of_magnitude ?_ ?_
    · simp only [powerOfTwo, ofBits, bits, Nat.pow_eq]
      exact (decide_eq_false (by omega)).symm
    · simp only [powerOfTwo, ofBits, bits, fractionBits, Nat.pow_eq]
      omega
  · have positive : (0 : ℚ) < 2 ^ scalingStep k := zpow_pos two_pos _
    refine toRat_eq_of_units (decide_eq_false (not_lt.mpr positive.le)).symm ?_
    rw [abs_of_pos positive, cast_units_powerOfTwo low high]

theorem exists_scalingRun (x : Binary64) (k : ℤ)
    : ∃ remaining, ScalingRun x k remaining (x.scaleByTwo k) := by
  induction x, k using scaleByTwo.induct with
  | case1 x k done =>
      rw [scaleByTwo_of_finished done]
      exact ⟨[], .done done⟩
  | case2 x k unfinished ih =>
      obtain ⟨remaining, rest⟩ := ih
      rw [scaleByTwo, if_neg unfinished]
      exact ⟨k :: remaining, .turn unfinished rest⟩

namespace ScalingRun

theorem turnFits (run : ScalingRun x k remaining y) (range : IsInt32 k)
    : ∀ left ∈ remaining, TurnFits left := by
  induction run with
  | done _ => simp
  | turn unfinished _ ih =>
      have first := Binary64.turnFits (fun zero => unfinished (.inl zero)) range
      exact List.forall_mem_cons.mpr ⟨first, ih first.fits⟩

theorem unfinished {left : ℤ} (run : ScalingRun x k (left :: remaining) y)
    : ¬ (k = 0 ∨ x.isZero ∨ ¬ x.isFinite) := by
  cases run with
  | turn unfinished _ => exact unfinished

/-- Going up, `2 ^ 1000` is gained in each turn before the last. -/
theorem length_up (run : ScalingRun x k remaining y) (up : 0 < k) (some : remaining ≠ []) {a : ℤ}
    (large : 2 ^ a ≤ (x.units : ℚ))
    : a + 1000 * (remaining.length - 1) < 2098 := by
  induction run generalizing a with
  | done _ => contradiction
  | @turn x k rest y unfinished tail ih =>
      have finite := isFinite_of_unfinished unfinished
      cases rest with
      | nil =>
          have inside : (2 : ℚ) ^ a < 2 ^ (2098 : ℤ) := by
            rw [← cast_unitsOf_infiniteMagnitude']
            exact lt_of_le_of_lt large (Nat.cast_lt.mpr (units_lt finite))
          have less := (zpow_lt_zpow_iff_right₀ one_lt_two).mp inside
          simpa using less
      | cons left rest =>
          have more := tail.unfinished
          have step : scalingStep k = 1000 ∧ 1000 < k := by
            simp only [scalingStep] at more ⊢
            omega
          rw [step.1] at more ih
          rcases mul_powerOfTwo_up (k := 1000) (by omega) (by omega) finite
            with ⟨_, exact⟩ | ⟨infinite, _⟩
          · have gained : 2 ^ (a + 1000) ≤ ((x.mul (powerOfTwo 1000)).units : ℚ) := by
              rw [exact, zpow_add₀ two_ne_zero]
              exact mul_le_mul_of_nonneg_right large (zpow_pos two_pos _).le
            have counted := ih (by omega) (by simp) gained
            simp only [List.length_cons] at counted ⊢
            push_cast at counted ⊢
            omega
          · exact (more (.inr (.inr (by simp [isFinite, infinite])))).elim

/-- Going down, `2 ^ 1000` is lost in each turn before the last. -/
theorem length_down (run : ScalingRun x k remaining y) (down : k < 0) (some : remaining ≠ [])
    {a : ℕ} (few : a ≤ 2098) (small : (x.units : ℚ) ≤ 2 ^ a)
    : 1000 * (remaining.length - 1) ≤ a + 1 := by
  induction run generalizing a with
  | done _ => contradiction
  | @turn x k rest y unfinished tail ih =>
      have finite := isFinite_of_unfinished unfinished
      cases rest with
      | nil => simp
      | cons left rest =>
          have more := tail.unfinished
          have step : scalingStep k = -1000 ∧ k < -1000 := by
            simp only [scalingStep] at more ⊢
            omega
          rw [step.1] at more ih
          obtain ⟨enough, less⟩ := units_mul_down finite few small (by
            by_contra zero
            exact more (.inr (.inl zero)))
          have counted := ih (by omega) (by simp) (by omega) less
          simp only [List.length_cons] at counted ⊢
          omega

/-- Three turns take any number past the largest or to zero. -/
theorem length_le (run : ScalingRun x k remaining y)
    : remaining.length ≤ 3 := by
  cases remaining with
  | nil => exact Nat.zero_le 3
  | cons left rest =>
      have unfinished := run.unfinished
      have finite := isFinite_of_unfinished unfinished
      rcases lt_trichotomy k 0 with down | zero | up
      · have inside : (x.units : ℚ) ≤ 2 ^ 2098 := by
          rw [← zpow_natCast]
          exact le_trans (Nat.cast_lt.mpr (units_lt finite)).le
            (le_of_eq cast_unitsOf_infiniteMagnitude')
        have counted := run.length_down down (by simp) (le_refl 2098) inside
        omega
      · exact (unfinished (.inl zero)).elim
      · have positive : 2 ^ (0 : ℤ) ≤ (x.units : ℚ) := by
          rw [zpow_zero, Nat.one_le_cast, Nat.one_le_iff_ne_zero]
          exact fun nothing => unfinished (.inr (.inl (isZero_of_units nothing)))
        have counted := run.length_up up (by simp) positive
        omega

end ScalingRun

-----------------------------------------------------------------------------------------
-- Signs
-----------------------------------------------------------------------------------------

theorem abs_scaled (x : Binary64) (k : ℤ)
    : |x.toRat * 2 ^ k| * unitsPerOne = x.units * 2 ^ k := by
  rw [abs_mul, abs_of_pos (zpow_pos two_pos k : (0 : ℚ) < 2 ^ k), mul_right_comm, abs_toRat]

/-- What is not zero has the sign of its value. -/
theorem sign_scaled (nonzero : x.isZero = false) (k : ℤ)
    : x.negative = decide (x.toRat * 2 ^ k < 0) := by
  have some : 0 < x.units := by
    refine Nat.pos_of_ne_zero fun nothing => ?_
    rw [isZero_of_units nothing] at nonzero
    contradiction
  have scale : (0 : ℚ) < 2 ^ k := zpow_pos two_pos k
  cases sign : x.negative with
  | false =>
      have value : 0 ≤ x.toRat :=
        div_nonneg (by simp [signedUnits, sign]) cast_unitsPerOne_pos.le
      exact (decide_eq_false (not_lt.mpr (mul_nonneg value scale.le))).symm
  | true =>
      have value : x.toRat < 0 :=
        div_neg_of_neg_of_pos (by simp [signedUnits, sign, some]) cast_unitsPerOne_pos
      exact (decide_eq_true (mul_neg_of_neg_of_pos value scale)).symm

theorem toRat_eq_of_scaled {r : ℚ} (sign : y.negative = x.negative)
    (scaled : (y.units : ℚ) = x.units * r)
    : y.toRat = x.toRat * r := by
  rw [toRat, toRat, div_mul_eq_mul_div, div_left_inj' cast_unitsPerOne_ne_zero, signedUnits,
    signedUnits, sign]
  cases x.negative with
  | false => simpa using scaled
  | true => simp [scaled]

/-- So many units are at least so much. -/
theorem le_units_of_le {e : ℤ} {q : ℚ} (large : 2 ^ e ≤ |q|)
    : (2 : ℚ) ^ (e + 1074) ≤ |q| * unitsPerOne := by
  rw [zpow_add₀ two_ne_zero, ← cast_unitsPerOne]
  exact mul_le_mul_of_nonneg_right large cast_unitsPerOne_pos.le

/-- Scaling by any exponent of 32 bits takes few turns and gives what it should. -/
theorem scaleByTwo_scales (x : Binary64) (range : IsInt32 k)
    : Scaling x k where
  turns := by
    obtain ⟨remaining, run⟩ := exists_scalingRun x k
    exact ⟨remaining, run, run.length_le, run.turnFits range⟩
  unchanged := by
    rintro (infinite | zero)
    · exact scaleByTwo_of_finished (.inr (.inr (Bool.eq_false_iff.mp infinite)))
    · exact scaleByTwo_of_finished (.inr (.inl zero))
  sign := negative_scaleByTwo x k
  faithful := by
    intro finite nonzero
    refine .of_faithful ?_ ?_
    · rw [negative_scaleByTwo, sign_scaled nonzero k]
    · rw [abs_scaled]
      exact faithful_scaleByTwo finite
  inexact := by
    intro finite inexact small
    by_contra least
    have normal := le_units_of_le (not_lt.mp least)
    have inside := mul_lt_mul_of_pos_right small cast_unitsPerOne_pos
    rw [← cast_unitsOf_infiniteMagnitude] at inside
    rw [abs_scaled] at normal inside
    obtain ⟨y, yFinite, sign, units⟩ := exists_scaled normal inside
    exact inexact y yFinite (toRat_eq_of_scaled sign units)
  nearest := by
    intro finite nonzero single
    refine ⟨?_, ?_⟩
    · rw [negative_scaleByTwo, sign_scaled nonzero k]
    · rw [abs_scaled]
      rcases single with short | ⟨short, large⟩
      · exact nearest_scaleByTwo finite short
      · have units := le_units_of_le large
        rw [abs_toRat] at units
        exact nearest_scaleByTwo_of_normal finite short units

/-- The first turn rounds to 24 bits and makes a tie of what the second turn has to round. -/
theorem scaleByTwo_scales_tie
    : IsInt32 (-1024)
      ∧ Scaling ⟨true, 973 * Nat.pow 2 52 + (Nat.pow 2 51 - 1), by decide⟩ (-1024) := by
  have range : IsInt32 (-1024) := ⟨by decide, by decide⟩
  exact ⟨range, scaleByTwo_scales _ range⟩

end Numeral.Binary64
