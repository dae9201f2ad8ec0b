import Numeral.Proofs.Binary64.Scaling

/-! Digits added one by one, each with a rounding of its own. As long as they fit the sum is exact.
Where the first does not fit the sum is rounded, and from then on the gaps between numbers are so
wide that no further digit moves it. So it is rounded only once that matters.
-/

namespace Numeral.Binary64

/-- The number stands for `n` times `2 ^ place` units and for anything more that stays below the
next multiple: it is exact, or settled between the two numbers that all of these lie between, in a
range where every gap has room for two places.
-/
inductive Tracks (n place : ℕ) (x : Binary64) : Prop
  | exact (unsigned : x.Unsigned) (finite : x.isFinite = true) (units : x.units = n * 2 ^ place)
  | settled (unsigned : x.Unsigned) (coarse : (place + 2) * 2 ^ 52 ≤ x.magnitude)
    (faithful
      : ∀ q : ℚ, n * 2 ^ place ≤ q → q < (n + 1) * 2 ^ place → Faithful q x.magnitude)

variable {n place bits digit magnitude low other : ℕ} {x y : Binary64} {q : ℚ}

theorem cast_unitsOf_le (order : magnitude ≤ other)
    : (unitsOf magnitude : ℚ) ≤ unitsOf other :=
  Nat.cast_le.mpr (unitsOf_strictMono.monotone order)

-----------------------------------------------------------------------------------------
-- Gaps
-----------------------------------------------------------------------------------------

/-- The gap above a magnitude is as wide as the steps of its grid. -/
theorem unitsOf_gap (coarse : (place + 1) * 2 ^ 52 ≤ magnitude)
    : unitsOf magnitude + 2 ^ place ≤ unitsOf (magnitude + 1) := by
  obtain ⟨k, j, rfl, few, normal⟩ := exists_grid magnitude
  have wide : place ≤ k := by omega
  rw [Nat.add_assoc, unitsOf_grid (Nat.le_of_lt few) normal, unitsOf_grid few (by omega),
    Nat.succ_mul]
  exact Nat.add_le_add_left (Nat.pow_le_pow_right two_pos wide) _

/-- A normal magnitude is shifted by its exponent. -/
theorem unitsOf_shift (normal : 2 ^ 52 ≤ magnitude) (bits : ℕ)
    : unitsOf (magnitude + bits * 2 ^ 52) = unitsOf magnitude * 2 ^ bits := by
  obtain ⟨k, j, rfl, few, least⟩ := exists_grid magnitude
  have shifted : k * 2 ^ 52 + j + bits * 2 ^ 52 = (k + bits) * 2 ^ 52 + j := by ring
  rw [shifted, unitsOf_grid (Nat.le_of_lt few) least,
    unitsOf_grid (Nat.le_of_lt few) (.inr (by omega)), pow_add, Nat.mul_assoc]

/-- A multiple of a place that is no magnitude lies in a wide gap, with the next multiple. -/
theorem gap_of_between (less : unitsOf low < n * 2 ^ place)
    (more : n * 2 ^ place < unitsOf (low + 1))
    : (place + 2) * 2 ^ 52 ≤ low ∧ (n + 1) * 2 ^ place ≤ unitsOf (low + 1) := by
  obtain ⟨k, j, rfl, few, normal⟩ := exists_grid low
  rw [unitsOf_grid (Nat.le_of_lt few) normal] at less
  rw [Nat.add_assoc, unitsOf_grid few (by omega)] at more ⊢
  rcases Nat.lt_or_ge place k with fine | coarse
  · obtain ⟨rest, rfl⟩ := Nat.exists_eq_add_of_lt fine
    have split : (j + 1) * 2 ^ (place + rest + 1) = (j + 1) * 2 ^ (rest + 1) * 2 ^ place := by
      ring
    rw [split] at more ⊢
    have next := lt_of_mul_lt_mul_right more (Nat.zero_le _)
    exact ⟨by omega, Nat.mul_le_mul_right _ next⟩
  · obtain ⟨rest, rfl⟩ := Nat.exists_eq_add_of_le coarse
    -- No multiple of a wider place stands between two steps of the grid.
    have split : n * 2 ^ (k + rest) = n * 2 ^ rest * 2 ^ k := by ring
    rw [split] at less more
    have above := lt_of_mul_lt_mul_right less (Nat.zero_le _)
    have below := lt_of_mul_lt_mul_right more (Nat.zero_le _)
    omega

/-- So many units of few bits are of that magnitude at least. -/
theorem le_magnitude_of_units (large : 2 ^ 52 * 2 ^ place ≤ unitsOf magnitude)
    : (place + 1) * 2 ^ 52 ≤ magnitude := by
  have least := unitsOf_grid (k := place) (j := 2 ^ 52) (by omega) (.inr (Nat.le_refl _))
  rw [← least] at large
  have order := unitsOf_strictMono.le_iff_le.mp large
  omega

namespace Nearest

/-- A magnitude without an end is cut off there. -/
theorem eq_min (nearest : Nearest (unitsOf other) magnitude)
    : magnitude = min infiniteMagnitude other := by
  rcases Nat.le_total other infiniteMagnitude with inside | beyond
  · rw [Nat.min_eq_right inside]
    exact nearest.unique (.of_unitsOf inside)
  · rw [Nat.min_eq_left beyond]
    exact nearest.unique (.of_ge (cast_unitsOf_le beyond))

/-- What lies in the lower half of a gap is rounded down. -/
theorem eq_of_lower_half (nearest : Nearest q magnitude) (inside : low ≤ infiniteMagnitude)
    (least : unitsOf low ≤ q) (half : 2 * q < unitsOf low + unitsOf (low + 1))
    : magnitude = low := by
  refine Nat.le_antisymm (Nat.le_of_not_lt fun more => ?_) (nearest.ge_of_ge inside least)
  have beyond := cast_unitsOf_le more
  have nearer := nearest.closest low inside
  simp only [distance] at nearer
  grind

end Nearest

namespace Faithful

theorem of_gap (inside : magnitude ≤ infiniteMagnitude) (least : unitsOf magnitude ≤ q)
    (more : q < unitsOf (magnitude + 1))
    : Faithful q magnitude := by
  refine .of_neighbours inside (fun before same => ?_) fun _ => more
  exact lt_of_lt_of_le (Nat.cast_lt.mpr (unitsOf_strictMono (by omega))) least

theorem of_between (finite : low < infiniteMagnitude) (less : (unitsOf low : ℚ) < q)
    (more : q < unitsOf (low + 1)) (here : magnitude = low ∨ magnitude = low + 1)
    : Faithful q magnitude := by
  rcases here with rfl | rfl
  · exact of_gap (Nat.le_of_lt finite) less.le more
  · refine .of_neighbours finite (fun before same => ?_) fun _ => ?_
    · obtain rfl := Nat.succ_injective same
      exact less
    · exact lt_of_lt_of_le more (cast_unitsOf_le (by omega))

/-- Normal magnitudes are faithful on every scale. -/
theorem shift_up (normal : 2 ^ 52 < magnitude) (faithful : Faithful (q / 2 ^ bits) magnitude)
    : Faithful q (min infiniteMagnitude (magnitude + bits * 2 ^ 52)) := by
  have scale : (0 : ℚ) < 2 ^ bits := pow_pos two_pos bits
  refine .of_neighbours (Nat.min_le_left ..) (fun before same => ?_) fun finite => ?_
  · obtain ⟨less, rfl⟩ := Nat.exists_eq_succ_of_ne_zero (Nat.ne_of_gt (Nat.zero_lt_of_lt normal))
    have below := faithful.below less (Nat.lt_succ_self less)
    rw [lt_div_iff₀ scale] at below
    have order : (unitsOf before : ℚ) ≤ unitsOf (less + bits * 2 ^ 52) :=
      cast_unitsOf_le (by omega)
    refine lt_of_le_of_lt order ?_
    rw [unitsOf_shift (by omega)]
    exact_mod_cast below
  · have inside : magnitude + bits * 2 ^ 52 < infiniteMagnitude := by omega
    have above := faithful.above (magnitude + 1) (by omega) (Nat.lt_succ_self _)
    rw [div_lt_iff₀ scale] at above
    rw [Nat.min_eq_right (Nat.le_of_lt inside), Nat.add_right_comm, unitsOf_shift (by omega)]
    exact_mod_cast above

end Faithful

-----------------------------------------------------------------------------------------
-- Sums and shifts
-----------------------------------------------------------------------------------------

theorem magnitude_of_not_finite (number : x.isNaN = false) (infinite : ¬ x.isFinite = true)
    : x.magnitude = infiniteMagnitude := by
  have most := of_decide_eq_false number
  have least := fun less => infinite (decide_eq_true less)
  exact Nat.le_antisymm (Nat.le_of_not_lt most) (Nat.le_of_not_lt least)

theorem add_nearest (left : x.Unsigned) (right : y.Unsigned) (xFinite : x.isFinite = true)
    (yFinite : y.isFinite = true)
    : Nearest (x.units + y.units : ℕ) (x.add y).magnitude := by
  have nearest := nearest_rounded false (x.units + y.units) Nat.one_pos
  rw [Nat.cast_one, div_one] at nearest
  rwa [add_of_finite xFinite yFinite left.positive right.positive]

theorem add_of_infinite (infinite : x.magnitude = infiniteMagnitude) (finite : y.isFinite = true)
    : x.add y = x := by
  have number : x.isNaN = false := decide_eq_false (Nat.not_lt.mpr (Nat.le_of_eq infinite))
  have isInfinite : x.isInfinite = true := beq_iff_eq.mpr infinite
  simp only [add, number, isNaN_of_isFinite finite, isInfinite, isInfinite_of_isFinite finite,
    Bool.or_self, Bool.false_and, Bool.false_eq_true, if_false, if_true]

/-- What a gap has room for twice is lost in a sum. -/
theorem magnitude_add_of_lt_gap (left : x.Unsigned) (right : y.Unsigned)
    (finite : y.isFinite = true) (coarse : (place + 2) * 2 ^ 52 ≤ x.magnitude)
    (small : y.units < 2 ^ place)
    : (x.add y).magnitude = x.magnitude := by
  by_cases xFinite : x.isFinite = true
  · refine (add_nearest left right xFinite finite).eq_of_lower_half
      (Nat.le_of_lt (of_decide_eq_true xFinite)) ?_ ?_
    · exact Nat.cast_le.mpr (Nat.le_add_right ..)
    · have gap : unitsOf x.magnitude + 2 ^ (place + 1) ≤ unitsOf (x.magnitude + 1) :=
        unitsOf_gap coarse
      rw [pow_succ] at gap
      have half : 2 * (x.units + y.units) < x.units + unitsOf (x.magnitude + 1) := by
        rw [← units] at gap
        omega
      exact_mod_cast half
  · rw [add_of_infinite (magnitude_of_not_finite left.number xFinite) finite]

/-- A normal number is shifted by its exponent alone, up to the end. -/
theorem magnitude_mul_powerOfTwo (unsigned : x.Unsigned) (normal : 2 ^ 52 ≤ x.magnitude)
    (few : bits ≤ 1023)
    : (x.mul (powerOfTwo bits)).magnitude
      = min infiniteMagnitude (x.magnitude + bits * 2 ^ 52) := by
  by_cases finite : x.isFinite = true
  · have nearest := (mul_powerOfTwo_nearest (k := bits) (by omega) (by omega) finite).2
    have shifted : (x.units * 2 ^ (bits : ℤ) : ℚ) = unitsOf (x.magnitude + bits * 2 ^ 52) := by
      rw [unitsOf_shift normal, zpow_natCast, Nat.cast_mul, Nat.cast_pow, Nat.cast_two, units]
    rw [shifted] at nearest
    exact nearest.eq_min
  · have infinite := magnitude_of_not_finite unsigned.number finite
    have isInfinite : x.isInfinite = true := beq_iff_eq.mpr infinite
    have nonzero : x.isZero = false := beq_eq_false_iff_ne.mpr (by omega)
    have power := isFinite_powerOfTwo (k := bits) (by omega)
    rw [infinite, Nat.min_eq_left (Nat.le_add_right ..)]
    simp only [mul, unsigned.number, isNaN_of_isFinite power, isInfinite, nonzero,
      isZero_powerOfTwo (k := bits) (by omega), Bool.or_self, Bool.true_or, Bool.false_eq_true,
      if_false, if_true, infinity]

-----------------------------------------------------------------------------------------
-- Tracking
-----------------------------------------------------------------------------------------

namespace Tracks

theorem unsigned (tracks : Tracks n place x)
    : x.Unsigned := by
  cases tracks with
  | exact unsigned _ _ => exact unsigned
  | settled unsigned _ _ => exact unsigned

/-- A multiple that is rounded is exact or settled. -/
theorem of_nearest (few : place ≤ 2045) (unsigned : x.Unsigned)
    (nearest : Nearest (n * 2 ^ place : ℕ) x.magnitude)
    : Tracks n place x := by
  rcases Nat.lt_or_ge (n * 2 ^ place) (unitsOf infiniteMagnitude) with inside | beyond
  · by_cases exactly : unitsOf x.magnitude = n * 2 ^ place
    · rw [← exactly] at inside
      exact .exact unsigned (decide_eq_true (unitsOf_strictMono.lt_iff_lt.mp inside)) exactly
    · obtain ⟨low, finite, less, more, here⟩ := nearest.faithful.exists_between
        (Nat.cast_lt.mpr inside) (Nat.cast_nonneg _) fun same => exactly (Nat.cast_injective same)
      obtain ⟨coarse, next⟩ := gap_of_between (Nat.cast_lt.mp less) (Nat.cast_lt.mp more)
      refine .settled unsigned (by omega) fun q least most => ?_
      refine .of_between finite (lt_of_lt_of_le less ?_) (lt_of_lt_of_le most ?_) here
      · exact_mod_cast least
      · exact_mod_cast next
  · have infinite : x.magnitude = infiniteMagnitude :=
      nearest.unique (.of_ge (Nat.cast_le.mpr beyond))
    refine .settled unsigned ?_ fun q least _ => ?_
    · rw [infinite]
      simp only [infiniteMagnitude, fractionBits, Nat.pow_eq]
      omega
    · rw [infinite]
      refine .of_infinite (le_trans (Nat.cast_le.mpr beyond) ?_)
      exact_mod_cast least

theorem shift (tracks : Tracks n place x) (few : place + bits ≤ 2045) (normal : bits ≤ 1023)
    : Tracks n (place + bits) (x.mul (powerOfTwo bits)) := by
  have unsigned : (x.mul (powerOfTwo bits)).Unsigned :=
    tracks.unsigned.mul (unsigned_powerOfTwo (by omega)) (isFinite_powerOfTwo (by omega))
      (.inr (isZero_powerOfTwo (k := bits) (by omega)))
  cases tracks with
  | exact _ finite units =>
      have nearest := (mul_powerOfTwo_nearest (k := bits) (by omega) (by omega) finite).2
      have shifted : (x.units * 2 ^ (bits : ℤ) : ℚ) = (n * 2 ^ (place + bits) : ℕ) := by
        rw [units, zpow_natCast, pow_add, ← Nat.mul_assoc]
        norm_cast
      rw [shifted] at nearest
      exact .of_nearest few unsigned nearest
  | settled before coarse faithful =>
      have magnitude := magnitude_mul_powerOfTwo before (by omega) normal
      refine .settled unsigned ?_ fun q least most => ?_
      · rw [magnitude]
        refine Nat.le_min.mpr ⟨Nat.mul_le_mul_right _ (by omega), ?_⟩
        rw [Nat.add_right_comm, Nat.add_mul]
        exact Nat.add_le_add_right coarse _
      · have scale : (0 : ℚ) < 2 ^ bits := pow_pos two_pos bits
        rw [pow_add, ← mul_assoc] at least most
        rw [magnitude]
        exact (faithful (q / 2 ^ bits) ((le_div_iff₀ scale).mpr least)
          ((div_lt_iff₀ scale).mpr most)).shift_up (by omega)

/-- One more digit, in the places below. -/
theorem add (tracks : Tracks n (place + bits) x) (few : place ≤ 2045) (small : digit < 2 ^ bits)
    (right : y.Unsigned) (finite : y.isFinite = true) (units : y.units = digit * 2 ^ place)
    : Tracks (n * 2 ^ bits + digit) place (x.add y) := by
  have unsigned := tracks.unsigned.add right
  have sum : (n * 2 ^ bits + digit) * 2 ^ place = n * 2 ^ (place + bits) + digit * 2 ^ place := by
    ring
  cases tracks with
  | exact left xFinite xUnits =>
      have nearest := add_nearest left right xFinite finite
      rw [xUnits, units, ← sum] at nearest
      exact .of_nearest few unsigned nearest
  | settled left coarse faithful =>
      have less : y.units < 2 ^ (place + bits) := by
        rw [units, Nat.add_comm, pow_add]
        exact Nat.mul_lt_mul_of_pos_right small (Nat.two_pow_pos place)
      have same := magnitude_add_of_lt_gap left right finite coarse less
      have finer : (place + 2) * 2 ^ 52 ≤ (place + bits + 2) * 2 ^ 52 :=
        Nat.mul_le_mul_right _ (by omega)
      refine .settled unsigned (same.symm ▸ le_trans finer coarse) fun q least most => ?_
      rw [same]
      -- The wider range of the digits before holds the narrower one.
      refine faithful q (le_trans ?_ least) (lt_of_lt_of_le most ?_)
      · have first : n * 2 ^ (place + bits) ≤ (n * 2 ^ bits + digit) * 2 ^ place := by
          rw [sum]
          exact Nat.le_add_right ..
        exact_mod_cast first
      · have next : (n * 2 ^ bits + digit + 1) * 2 ^ place ≤ (n + 1) * 2 ^ (place + bits) := by
          calc (n * 2 ^ bits + digit + 1) * 2 ^ place
            _ ≤ (n + 1) * 2 ^ bits * 2 ^ place := by
              refine Nat.mul_le_mul_right _ ?_
              rw [Nat.succ_mul]
              omega
            _ = (n + 1) * 2 ^ (place + bits) := by ring
        exact_mod_cast next

/-- What is tracked is rounded faithfully where the places are no wider than the gaps. -/
theorem faithful (tracks : Tracks n place x) (least : n * 2 ^ place ≤ q)
    (most : q < (n + 1) * 2 ^ place)
    (fine : place = 0 ∨ q = n * 2 ^ place ∨ 2 ^ 52 * 2 ^ place ≤ q)
    : Faithful q x.magnitude := by
  cases tracks with
  | settled _ _ faithful => exact faithful q least most
  | exact _ finite units =>
      have inside := Nat.le_of_lt (of_decide_eq_true finite)
      have value : (unitsOf x.magnitude : ℚ) = n * 2 ^ place := by
        rw [← Binary64.units, units]
        norm_cast
      have gap (wide : unitsOf x.magnitude + 2 ^ place ≤ unitsOf (x.magnitude + 1))
          : Faithful q x.magnitude := by
        refine .of_gap inside (value ▸ least) (lt_of_lt_of_le most ?_)
        rw [add_mul, one_mul, ← value]
        exact_mod_cast wide
      rcases fine with rfl | same | large
      · exact gap (unitsOf_strictMono (Nat.lt_succ_self _))
      · rw [same, ← value]
        exact .of_unitsOf inside
      · have many : 2 ^ 52 < n + 1 := by
          have more := lt_of_mul_lt_mul_right (lt_of_le_of_lt large most)
            (pow_pos two_pos place).le
          exact_mod_cast more
        refine gap (unitsOf_gap (le_magnitude_of_units ?_))
        rw [← Binary64.units, units]
        exact Nat.mul_le_mul_right _ (Nat.le_of_lt_succ many)

end Tracks

-----------------------------------------------------------------------------------------
-- Places
-----------------------------------------------------------------------------------------

/-- The number is one in its place: `2 ^ place` units. -/
structure IsPlace (place : ℕ) (x : Binary64) : Prop where
  unsigned : x.Unsigned
  finite : x.isFinite = true
  units : x.units = 2 ^ place

theorem units_zero
    : zero.units = 0 :=
  units_of_isZero rfl

theorem ofNat_mul_zero (few : digit < 2 ^ 53)
    : (ofNat digit).mul zero = zero := by
  obtain ⟨finite, sign, -⟩ := ofNat_exact few
  exact mul_eq finite rfl rfl (by rw [sign]; rfl) (by rw [units_zero, Nat.mul_zero, Nat.zero_mul])

theorem zero_mul_powerOfTwo {k : ℤ} (high : k ≤ 1023)
    : zero.mul (powerOfTwo k) = zero :=
  mul_eq rfl (isFinite_powerOfTwo high) rfl rfl (by rw [units_zero, Nat.zero_mul, Nat.zero_mul])

theorem Unsigned.add_zero (unsigned : x.Unsigned)
    : x.add zero = x := by
  by_cases finite : x.isFinite = true
  · refine add_eq finite rfl finite unsigned.positive rfl unsigned.positive ?_
    rw [units_zero, Nat.add_zero]
  · exact add_of_infinite (magnitude_of_not_finite unsigned.number finite) rfl

namespace IsPlace

theorem powerOfTwo_neg (few : bits ≤ 1022)
    : IsPlace (1074 - bits) (powerOfTwo (-bits)) where
  unsigned := unsigned_powerOfTwo (by omega)
  finite := isFinite_powerOfTwo (by omega)
  units := by
    rw [units_powerOfTwo (by omega) (by omega)]
    congr 1
    omega

/-- A digit in its place is not rounded. -/
theorem times_digit (isPlace : IsPlace place x) (few : bits ≤ 53) (fits : place + bits < 2098)
    (small : digit < 2 ^ bits)
    : ((ofNat digit).mul x).Unsigned
      ∧ ((ofNat digit).mul x).isFinite = true
      ∧ ((ofNat digit).mul x).units = digit * 2 ^ place := by
  have short : digit < 2 ^ 53 := Nat.lt_of_lt_of_le small (Nat.pow_le_pow_right two_pos few)
  obtain ⟨digitFinite, digitSign, digitUnits⟩ := ofNat_exact short
  have inside : digit * 2 ^ place < unitsOf infiniteMagnitude := by
    calc digit * 2 ^ place
      _ ≤ 2 ^ bits * 2 ^ place := Nat.mul_le_mul_right _ (Nat.le_of_lt small)
      _ = 2 ^ (place + bits) := by rw [Nat.add_comm, pow_add]
      _ < unitsOf infiniteMagnitude := pow_lt_infinite fits
  obtain ⟨y, finite, sign, units⟩ := exists_number false short inside
  have product : (ofNat digit).mul x = y := by
    refine mul_eq digitFinite isPlace.finite finite ?_ ?_
    · rw [sign, digitSign, isPlace.unsigned.positive]
      rfl
    · rw [digitUnits, isPlace.units, units, Nat.mul_right_comm]
  rw [product]
  exact ⟨⟨isNaN_of_isFinite finite, sign⟩, finite, units⟩

/-- The next place is exact as long as it is not less than a unit. -/
theorem next (isPlace : IsPlace (place + bits) x) (few : bits ≤ 1022) (fits : place < 2098)
    : IsPlace place (x.mul (powerOfTwo (-bits))) := by
  have inside : 1 * 2 ^ place < unitsOf infiniteMagnitude := by
    rw [Nat.one_mul]
    exact pow_lt_infinite fits
  obtain ⟨y, finite, sign, units⟩ := exists_number false (by norm_num) inside
  rw [Nat.one_mul] at units
  have shifted : (y.units : ℚ) = x.units * 2 ^ (-bits : ℤ) := by
    rw [units, isPlace.units, pow_add, zpow_neg, zpow_natCast]
    push_cast
    rw [mul_inv_cancel_right₀ (pow_ne_zero bits two_ne_zero)]
  have product : x.mul (powerOfTwo (-bits)) = y :=
    mul_powerOfTwo_eq (by omega) (by omega) isPlace.finite finite
      (sign.trans isPlace.unsigned.positive.symm) shifted
  rw [product]
  exact ⟨⟨isNaN_of_isFinite finite, sign⟩, finite, units⟩

/-- Below the unit there is no place: half a unit is a tie and rounded to zero. -/
theorem last (isPlace : IsPlace place x) (few : bits ≤ 1022) (short : place < bits)
    : x.mul (powerOfTwo (-bits)) = zero := by
  obtain ⟨sign, nearest⟩ :=
    mul_powerOfTwo_nearest (k := -bits) (by omega) (by omega) isPlace.finite
  have half : (x.units * 2 ^ (-bits : ℤ) : ℚ) ≤ 1 / 2 := by
    calc (x.units * 2 ^ (-bits : ℤ) : ℚ)
      _ = 2 ^ ((place : ℤ) - bits) := by
        rw [isPlace.units, Nat.cast_pow, Nat.cast_two, ← zpow_natCast,
          ← zpow_add₀ two_ne_zero, sub_eq_add_neg]
      _ ≤ 2 ^ (-1 : ℤ) := zpow_le_zpow_right₀ one_le_two (by omega)
      _ = 1 / 2 := by norm_num
  have nonnegative : 0 ≤ (x.units * 2 ^ (-bits : ℤ) : ℚ) :=
    mul_nonneg (Nat.cast_nonneg _) (zpow_pos two_pos _).le
  exact eq_of_magnitude (sign.trans isPlace.unsigned.positive)
    (nearest.unique (.zero_of_le nonnegative half))

end IsPlace

/-- One more digit in its place. -/
theorem Tracks.add_digit (tracks : Tracks n (place + bits) x) (isPlace : IsPlace place y)
    (few : bits ≤ 53) (fits : place ≤ 2044) (small : digit < 2 ^ bits)
    : Tracks (n * 2 ^ bits + digit) place (x.add ((ofNat digit).mul y)) := by
  obtain ⟨unsigned, finite, units⟩ := isPlace.times_digit few (by omega) small
  exact tracks.add (by omega) small unsigned finite units

end Numeral.Binary64
