import Numeral.Literal.Value
import Numeral.Proofs.Binary64.Accumulation
import Numeral.Proofs.Literal.Unsigned
import Numeral.Proofs.Text.Number

/-! The number that digits in groups of bits add up to. What is added is tracked digit by digit, to
the last place that is not less than a unit; the digits behind that place are not added at all.
-/

namespace Numeral.Significand

open Binary64 (Faithful IsPlace RoundsFaithfully Tracks powerOfTwo unitsPerOne)

/-- The number that the digits write. -/
def toRat (base : ℕ) (significand : Significand) : ℚ :=
  Digit.number base significand.whole
    + Digit.number base significand.fraction / base ^ significand.fraction.length

/-- The significand with no more than the first `count` digits of its fraction. -/
def truncate (count : ℕ) (significand : Significand) : Significand where
  whole := significand.whole
  fraction := significand.fraction.take count

variable {bits n place count base : ℕ} {digits : List ℕ} {sum part : Binary64}
  {significand : Significand}

-----------------------------------------------------------------------------------------
-- Sums
-----------------------------------------------------------------------------------------

/-- A digit of the whole part moves the number up and takes the place of the ones. -/
theorem tracks_foldl_whole (few : bits ≤ 53) (small : ∀ digit ∈ digits, digit < 2 ^ bits)
    (tracks : Tracks n 1074 sum)
    : Tracks (digits.foldl (fun number digit => number * 2 ^ bits + digit) n) 1074
        (digits.foldl (fun sum digit => (sum.mul (powerOfTwo bits)).add (.ofNat digit)) sum) := by
  induction digits generalizing n sum with
  | nil => exact tracks
  | cons digit rest ih =>
      obtain ⟨first, later⟩ := List.forall_mem_cons.mp small
      have short : digit < 2 ^ 53 := Nat.lt_of_lt_of_le first (Nat.pow_le_pow_right two_pos few)
      obtain ⟨finite, -, units⟩ := Binary64.ofNat_exact short
      rw [Binary64.unitsPerOne_eq] at units
      have shifted : Tracks n (1074 + bits) (sum.mul (powerOfTwo bits)) :=
        tracks.shift (by omega) (by omega)
      exact ih later (shifted.add (by omega) first (Binary64.unsigned_ofNat digit) finite units)

/-- Without a place digits add nothing. -/
theorem foldl_fraction_zero (few : bits ≤ 53) (small : ∀ digit ∈ digits, digit < 2 ^ bits)
    (unsigned : sum.Unsigned)
    : (digits.foldl
        (fun (sum, place) digit =>
          (sum.add ((Binary64.ofNat digit).mul place), place.mul (powerOfTwo (-bits))))
        (sum, Binary64.zero)).1 = sum := by
  induction digits with
  | nil => rfl
  | cons digit rest ih =>
      obtain ⟨first, later⟩ := List.forall_mem_cons.mp small
      have short : digit < 2 ^ 53 := Nat.lt_of_lt_of_le first (Nat.pow_le_pow_right two_pos few)
      dsimp only [List.foldl_cons]
      rw [Binary64.ofNat_mul_zero short, unsigned.add_zero,
        Binary64.zero_mul_powerOfTwo (by omega)]
      exact ih later

/-- By induction on the digits, each of which takes the next place, until there is none. -/
theorem tracks_foldl_fraction (positive : 0 < bits) (few : bits ≤ 53)
    (small : ∀ digit ∈ digits, digit < 2 ^ bits) (fits : place ≤ 1074)
    (tracks : Tracks n (place + bits) sum) (isPlace : IsPlace place part)
    : ∃ left,
        left + bits * (digits.take (place / bits + 1)).length = place + bits
        ∧ Tracks
            ((digits.take (place / bits + 1)).foldl
              (fun number digit => number * 2 ^ bits + digit) n)
            left
            (digits.foldl
              (fun (sum, place) digit =>
                (sum.add ((Binary64.ofNat digit).mul place), place.mul (powerOfTwo (-bits))))
              (sum, part)).1 := by
  induction digits generalizing n place sum part with
  | nil => exact ⟨place + bits, rfl, tracks⟩
  | cons digit rest ih =>
      obtain ⟨first, later⟩ := List.forall_mem_cons.mp small
      have added := tracks.add_digit isPlace few (by omega) first
      rcases Nat.lt_or_ge place bits with short | long
      · have only : place / bits = 0 := Nat.div_eq_of_lt short
        refine ⟨place, by simp [only], ?_⟩
        dsimp only [List.foldl_cons]
        rw [isPlace.last (by omega) short, foldl_fraction_zero few later added.unsigned, only]
        exact added
      · obtain ⟨below, rfl⟩ := Nat.exists_eq_add_of_le' long
        obtain ⟨left, places, tracked⟩ :=
          ih later (by omega) added (isPlace.next (by omega) (by omega))
        refine ⟨left, ?_, ?_⟩
        · rw [Nat.add_div_right _ positive, List.take_succ_cons, List.length_cons, Nat.mul_succ,
            ← Nat.add_assoc, places]
        · rw [Nat.add_div_right _ positive, List.take_succ_cons]
          exact tracked

/-- The sum tracks what the digits write in all places that are not less than a unit. -/
theorem tracks_accumulate (positive : 0 < bits) (few : bits ≤ 53)
    (small : ∀ digit ∈ significand.whole ++ significand.fraction, digit < 2 ^ bits)
    : ∃ place,
        place + bits * (significand.truncate (1074 / bits)).fraction.length = 1074
        ∧ Tracks
            (Digit.number (2 ^ bits)
              (significand.whole ++ (significand.truncate (1074 / bits)).fraction))
            place (significand.accumulate bits) := by
  obtain ⟨inWhole, inFraction⟩ := List.forall_mem_append.mp small
  have nothing : Tracks 0 1074 Binary64.zero :=
    .exact Binary64.unsigned_zero rfl (by rw [Binary64.units_zero, Nat.zero_mul])
  have whole := tracks_foldl_whole few inWhole nothing
  have places : 1074 - bits + bits = 1074 := by omega
  have count : (1074 - bits) / bits + 1 = 1074 / bits :=
    (Nat.div_eq_sub_div positive (by omega)).symm
  rw [← places] at whole
  have tracked := tracks_foldl_fraction positive few inFraction (by omega) whole
    (IsPlace.powerOfTwo_neg (by omega))
  rw [count, places] at tracked
  rw [Digit.number, List.foldl_append]
  exact tracked

-----------------------------------------------------------------------------------------
-- Numbers
-----------------------------------------------------------------------------------------

theorem toRat_nonneg (base : ℕ) (significand : Significand)
    : 0 ≤ significand.toRat base := by
  rw [toRat]
  positivity

theorem toRat_fraction (base : ℕ) (fraction : List ℕ)
    : toRat base ⟨[], fraction⟩ = Digit.number base fraction / base ^ fraction.length := by
  simp [toRat, Digit.number]

/-- A fraction is less than one. -/
theorem toRat_fraction_lt_one (positive : 0 < base) {fraction : List ℕ}
    (small : ∀ digit ∈ fraction, digit < base)
    : toRat base ⟨[], fraction⟩ < 1 := by
  have scale : (0 : ℚ) < base := Nat.cast_pos.mpr positive
  rw [toRat_fraction, div_lt_one (pow_pos scale _)]
  exact_mod_cast Digit.number_lt_pow small

/-- The digits that are cut off are a fraction of the last place that is kept. -/
theorem toRat_eq_truncate_add (positive : 0 < base) (count : ℕ) (significand : Significand)
    : significand.toRat base
      = (significand.truncate count).toRat base
        + toRat base ⟨[], significand.fraction.drop count⟩
          / base ^ (significand.truncate count).fraction.length := by
  have nonzero : (base : ℚ) ≠ 0 := Nat.cast_ne_zero.mpr (Nat.ne_of_gt positive)
  have split := Digit.number_append base (significand.fraction.take count)
    (significand.fraction.drop count)
  have length := congrArg List.length (List.take_append_drop count significand.fraction)
  rw [List.take_append_drop] at split
  rw [List.length_append] at length
  rw [toRat_fraction]
  simp only [toRat, truncate, split, ← length, pow_add]
  push_cast
  field_simp
  ring

theorem unitsPerOne_eq_places (places : place + bits * count = 1074)
    : (unitsPerOne : ℚ) = 2 ^ place * (2 ^ bits) ^ count := by
  rw [Binary64.cast_unitsPerOne, ← pow_mul, ← pow_add, ← zpow_natCast, places, Nat.cast_ofNat]

/-- The units that digits write are a multiple of their last place. -/
theorem toRat_mul_unitsPerOne (places : place + bits * significand.fraction.length = 1074)
    : significand.toRat (2 ^ bits) * unitsPerOne
      = Digit.number (2 ^ bits) (significand.whole ++ significand.fraction) * 2 ^ place := by
  have nonzero : ((2 : ℚ) ^ bits) ^ significand.fraction.length ≠ 0 := by positivity
  rw [unitsPerOne_eq_places places, toRat, Digit.number_append]
  push_cast
  field_simp

/-- With the digits that are cut off they stay below the next multiple. -/
theorem toRat_mul_unitsPerOne_between (small : ∀ digit ∈ significand.fraction, digit < 2 ^ bits)
    (places : place + bits * (significand.truncate count).fraction.length = 1074)
    : (significand.truncate count).toRat (2 ^ bits) * unitsPerOne
        ≤ significand.toRat (2 ^ bits) * unitsPerOne
      ∧ significand.toRat (2 ^ bits) * unitsPerOne
        < (significand.truncate count).toRat (2 ^ bits) * unitsPerOne + 2 ^ place := by
  have step : (0 : ℚ) < 2 ^ place := pow_pos two_pos place
  have nonzero : ((2 : ℚ) ^ bits) ^ (significand.truncate count).fraction.length ≠ 0 :=
    pow_ne_zero _ (pow_ne_zero _ two_ne_zero)
  have more := toRat_nonneg (2 ^ bits) ⟨[], significand.fraction.drop count⟩
  have less := toRat_fraction_lt_one (Nat.two_pow_pos bits) fun digit member =>
    small digit (List.mem_of_mem_drop (i := count) member)
  have split : significand.toRat (2 ^ bits) * unitsPerOne
      = (significand.truncate count).toRat (2 ^ bits) * unitsPerOne
        + toRat (2 ^ bits) ⟨[], significand.fraction.drop count⟩ * 2 ^ place := by
    rw [toRat_eq_truncate_add (Nat.two_pow_pos bits) count, add_mul, div_mul_eq_mul_div,
      Nat.cast_pow, Nat.cast_two]
    nth_rewrite 2 [unitsPerOne_eq_places places]
    rw [← mul_assoc, mul_div_cancel_right₀ _ nonzero]
  rw [split]
  exact ⟨le_add_of_nonneg_right (mul_nonneg more step.le),
    by linarith [mul_lt_mul_of_pos_right less step]⟩

/-- The places that are kept are rounded faithfully. -/
theorem faithful_accumulate_truncate (positive : 0 < bits) (few : bits ≤ 53)
    (small : ∀ digit ∈ significand.whole ++ significand.fraction, digit < 2 ^ bits)
    : Faithful ((significand.truncate (1074 / bits)).toRat (2 ^ bits) * unitsPerOne)
        (significand.accumulate bits).magnitude := by
  obtain ⟨place, places, tracked⟩ := tracks_accumulate positive few small
  have step : (0 : ℚ) < 2 ^ place := pow_pos two_pos place
  have units := toRat_mul_unitsPerOne places
  refine tracked.faithful (le_of_eq units.symm) ?_ (.inr (.inl units))
  rw [units, add_mul, one_mul]
  exact lt_add_of_pos_right _ step

/-- All of the number is rounded faithfully unless it is so small that a place that is missing would
have been needed.
-/
theorem faithful_accumulate (positive : 0 < bits) (few : bits ≤ 53)
    (small : ∀ digit ∈ significand.whole ++ significand.fraction, digit < 2 ^ bits)
    (fine
      : significand.fraction.length ≤ 1074 / bits
        ∨ 1074 % bits = 0
        ∨ 2 ^ 52 * 2 ^ (1074 % bits) ≤ significand.toRat (2 ^ bits) * unitsPerOne)
    : Faithful (significand.toRat (2 ^ bits) * unitsPerOne)
        (significand.accumulate bits).magnitude := by
  rcases Nat.lt_or_ge (1074 / bits) significand.fraction.length with long | short
  · obtain ⟨place, places, tracked⟩ := tracks_accumulate positive few small
    have units := toRat_mul_unitsPerOne places
    have kept : (significand.truncate (1074 / bits)).fraction.length = 1074 / bits := by
      rw [truncate, List.length_take, Nat.min_eq_left (Nat.le_of_lt long)]
    have last : 1074 % bits = place := by
      have whole := Nat.mod_add_div 1074 bits
      rw [kept] at places
      omega
    obtain ⟨least, most⟩ :=
      toRat_mul_unitsPerOne_between (List.forall_mem_append.mp small).2 places
    rw [units] at least most
    rw [last] at fine
    refine tracked.faithful least ?_ ?_
    · rwa [add_mul, one_mul]
    · rcases fine with all | whole | large
      · omega
      · exact .inl whole
      · exact .inr (.inr large)
  · have all : significand.truncate (1074 / bits) = significand := by
      rw [truncate, List.take_of_length_le short]
    have faithful := faithful_accumulate_truncate positive few small
    rwa [all] at faithful

-----------------------------------------------------------------------------------------
-- Rounding
-----------------------------------------------------------------------------------------

/-- The sum has no sign, and neither have the numbers that it is compared with. -/
theorem roundsFaithfully_of_faithful (few : bits ≤ 53)
    (small : ∀ digit ∈ significand.whole ++ significand.fraction, digit < 2 ^ bits)
    {other : Significand}
    (faithful : Faithful (other.toRat base * unitsPerOne) (significand.accumulate bits).magnitude)
    : RoundsFaithfully (other.toRat base) (significand.accumulate bits) := by
  have short : ∀ digit ∈ significand.fraction, digit < 2 ^ 53 := fun digit member =>
    Nat.lt_of_lt_of_le (small digit (List.mem_append_right _ member))
      (Nat.pow_le_pow_right two_pos few)
  exact .of_unsigned (unsigned_accumulate (by omega) short) (toRat_nonneg base other) faithful

end Numeral.Significand
