import Numeral.Proofs.Binary64.Scaling
import Numeral.Proofs.Reading.Grammar

/-! Exponents, place by place: which characters begin one, where it ends, and what it is. The digits
are taken one after the other and kept within 32 bits all the way, and that gives the number that is
written, or the largest one there is.
-/

namespace Numeral

open Binary64 (IsInt32)
open Decimal (natural)

theorem Sign.ofChar?_isSome_iff (c : Char)
    : (ofChar? c).isSome = true ↔ c = '+' ∨ c = '-' := by
  unfold ofChar?
  split <;> simp_all

-----------------------------------------------------------------------------------------
-- Digits within 32 bits
-----------------------------------------------------------------------------------------

namespace Marker

/-- The integer of 32 bits that is nearest to `k`. -/
def toInt32 (k : ℤ) : ℤ :=
  max (-2147483648) (min 2147483647 k)

/-- The number with one more digit at its end. The product and the sum are both kept within 32 bits.
-/
def appendDigit (number : ℤ) (digit : ℕ) : ℤ :=
  toInt32 (toInt32 (number * 10) + digit)

/-- Digits only ever increase a number, so the lower end is never met, and once at the upper end the
number stays there.
-/
theorem appendDigit_natCast {number : ℕ} (inside : number ≤ limit) (digit : ℕ)
    : appendDigit number digit = (min limit (10 * number + digit) : ℕ) := by
  simp only [appendDigit, toInt32, limit] at inside ⊢
  omega

/-- By induction on the digits: the number is within the limit before each of them. -/
theorem foldl_appendDigit (digits : List ℕ)
    : digits.foldl appendDigit 0 = (min limit (Digit.number 10 digits) : ℕ) := by
  have within (digits : List ℕ) {number : ℕ} (inside : number ≤ limit)
      : digits.foldl appendDigit number
        = (digits.foldl (fun number digit => min limit (10 * number + digit)) number : ℕ) := by
    induction digits generalizing number with
    | nil => rfl
    | cons digit rest ih =>
        rw [List.foldl_cons, List.foldl_cons, appendDigit_natCast inside]
        exact ih (Nat.min_le_left ..)
  rw [← saturate_eq_min]
  exact within digits (Nat.zero_le limit)

end Marker

-----------------------------------------------------------------------------------------
-- Exponents at a place
-----------------------------------------------------------------------------------------

namespace Cursor

/-- A letter of the marker stands at the cursor, with a digit or a sign behind it. -/
def BeginsExponent (cursor : Cursor) (marker : Marker) : Prop :=
  (∃ letter ∈ cursor.peek?, marker.hasLetter letter = true)
  ∧ ∃ next ∈ cursor.get? (cursor.offset + 1), next.isDigit = true ∨ next = '+' ∨ next = '-'

/-- What is read as an exponent at the cursor, told from the characters there. `digits` is about the
longest run of digits behind the marker and the sign that may be left out: what is read ends with
it, and its value has the sign that is written and the absolute value that is, or the largest one
there is. `taken` says that it is the same to take the digits one by one within 32 bits, and that
whatever digits have been taken, the number so far has an opposite within 32 bits.
-/
structure ReadsExponent (cursor : Cursor) (marker : Marker) : Prop where
  absent_iff
    : (cursor.readExponent marker).outcome = .ok cursor.absent
        ∧ (cursor.readExponent marker).cursor = cursor
      ↔ ¬ cursor.BeginsExponent marker
  malformed_iff
    : (cursor.readExponent marker).outcome
          = .ok (cursor.malformed (cursor.offset + 2) 0 .exponentExpected)
        ∧ (cursor.readExponent marker).cursor.offset = cursor.offset + 2
      ↔ cursor.BareSignAt (marker.hasLetter · = true) cursor.offset
  digits
    : cursor.BeginsExponent marker
      → ¬ cursor.BareSignAt (marker.hasLetter · = true) cursor.offset
      → ∃ first stop,
          (first = cursor.offset + 1
            ∨ (first = cursor.offset + 2 ∧ cursor.SignAt (cursor.offset + 1)))
          ∧ first < stop
          ∧ cursor.RunsTo (·.isDigit = true) first stop
          ∧ (cursor.readExponent marker).outcome
            = .ok (cursor.complete stop
                ((if cursor.get? (cursor.offset + 1) = some '-' then -1 else 1)
                  * (min 2147483647 (natural (cursor.between first stop)) : ℕ)))
          ∧ (cursor.readExponent marker).cursor.offset = stop
  taken
    : ∀ digits : List ℕ,
        digits.foldl Marker.appendDigit 0 = (min 2147483647 (Digit.number 10 digits) : ℕ)
        ∧ IsInt32 (-digits.foldl Marker.appendDigit 0)
  bounded
    : ∀ outcome value,
        (cursor.readExponent marker).outcome = .ok outcome
        → outcome.value? = some value
        → -2147483647 ≤ value ∧ value ≤ 2147483647

variable {cursor : Cursor} {marker : Marker} {start : Nat} {letter : Char} {sign : Option Sign}
  {digits rest : List Char}

theorem take_two_unread_iff (first second : Char)
    : cursor.unread.take 2 = [first, second]
      ↔ cursor.peek? = some first ∧ cursor.get? (cursor.offset + 1) = some second := by
  have zeroth : cursor.peek? = cursor.unread[0]? := by
    rw [peek?_eq_head?_unread, List.head?_eq_getElem?]
  have next : cursor.get? (cursor.offset + 1) = cursor.unread[1]? := by
    rw [get?, unread, List.getElem?_drop]
  rw [zeroth, next]
  rcases cursor.unread with _ | ⟨a, _ | ⟨b, rest⟩⟩ <;> simp

theorem exponent?_isSome_iff_begins
    : (marker.exponent? cursor.unread).isSome = true ↔ cursor.BeginsExponent marker := by
  rw [Marker.exponent?_isSome_iff]
  constructor
  · rintro ⟨letter, next, begins, marked, signOrDigit⟩
    obtain ⟨here, behind⟩ := (take_two_unread_iff letter next).mp begins
    rw [Sign.ofChar?_isSome_iff] at signOrDigit
    exact ⟨⟨letter, here, marked⟩, next, behind, signOrDigit.symm⟩
  · rintro ⟨⟨letter, here, marked⟩, next, behind, digitOrSign⟩
    refine ⟨letter, next, (take_two_unread_iff letter next).mpr ⟨here, behind⟩, marked, ?_⟩
    rw [Sign.ofChar?_isSome_iff]
    exact digitOrSign.symm

/-- Of what may stand behind a letter only a minus sign is one. -/
theorem minus_iff_of_drop
    (split : cursor.text.drop start = letter :: (Sign.written sign ++ digits) ++ rest)
    (present : digits ≠ []) (inside : ∀ c ∈ digits, Digit.isDigit 10 c = true)
    : cursor.get? (start + 1) = some '-' ↔ sign = some .minus := by
  have here := get?_of_drop split 1
  obtain ⟨first, others, rfl⟩ := List.exists_cons_of_ne_nil present
  have digit := inside first List.mem_cons_self
  rcases sign with _ | _ | _
  · have next : cursor.get? (start + 1) = some first := here
    have apart : first ≠ '-' := by
      rintro rfl
      contradiction
    simp [next, apart]
  · have next : cursor.get? (start + 1) = some '+' := here
    simp [next]
  · have next : cursor.get? (start + 1) = some '-' := here
    simp [next]

theorem applyInt_eq_mul (sign : Option Sign) (n : ℕ)
    : Sign.applyInt sign n = (if sign = some .minus then -1 else 1) * n := by
  rcases sign with _ | _ | _ <;> simp [Sign.applyInt, Sign.apply]

theorem readExponent_of_spells {body rest : List Char} {lexeme : Lexeme Int}
    (split : cursor.unread = body ++ rest) (spells : marker.SpellsExponent body rest lexeme)
    : (cursor.readExponent marker).outcome = .ok (.ofLexeme cursor.offset (some lexeme))
      ∧ (cursor.readExponent marker).cursor.offset = cursor.offset + body.length := by
  have found : marker.exponent? cursor.unread = some lexeme := by
    rw [split]
    exact spells.read
  have inside : lexeme.length ≤ cursor.unread.length := by
    rw [split, spells.length_eq, List.length_append]
    exact Nat.le_add_right ..
  have behind := cursor.advance_fits inside
  rw [spells.length_eq] at behind
  simp only [readExponent, read, found, Cursor.behind, spells.length_eq, behind, and_self]

theorem readExponent_of_absent (absent : ¬ cursor.BeginsExponent marker)
    : (cursor.readExponent marker).outcome = .ok cursor.absent
      ∧ (cursor.readExponent marker).cursor = cursor := by
  rw [← exponent?_isSome_iff_begins, Option.not_isSome_iff_eq_none] at absent
  simp only [readExponent, read, absent, behind, Outcome.ofLexeme, Cursor.absent, and_self]

/-- Where an exponent is begun it is spelled. -/
theorem exists_spells (begins : cursor.BeginsExponent marker)
    : ∃ body rest lexeme,
        cursor.unread = body ++ rest ∧ marker.SpellsExponent body rest lexeme := by
  obtain ⟨lexeme, found⟩ :=
    Option.isSome_iff_exists.mp (exponent?_isSome_iff_begins.mpr begins)
  obtain ⟨body, rest, split, spells⟩ := Marker.exponent?_eq_some found
  exact ⟨body, rest, lexeme, split, spells⟩

theorem BareSignAt.begins (bare : cursor.BareSignAt (marker.hasLetter · = true) cursor.offset)
    : cursor.BeginsExponent marker := by
  obtain ⟨marked, sign, -⟩ := bare
  refine ⟨marked, ?_⟩
  rcases sign with plus | minus
  · exact ⟨'+', plus, .inr (.inl rfl)⟩
  · exact ⟨'-', minus, .inr (.inr rfl)⟩

/-- A sign with a digit behind it is not alone, and a digit is no sign. -/
theorem not_bareSignAt_of_drop {marks : Char → Prop}
    (split : cursor.text.drop start = letter :: (Sign.written sign ++ digits) ++ rest)
    (present : digits ≠ []) (inside : ∀ c ∈ digits, Digit.isDigit 10 c = true)
    : ¬ cursor.BareSignAt marks start := by
  obtain ⟨first, others, rfl⟩ := List.exists_cons_of_ne_nil present
  have digit := inside first List.mem_cons_self
  rw [Digit.isDigit_ten] at digit
  rintro ⟨-, signed, noDigit⟩
  cases sign with
  | none =>
      have next : cursor.get? (start + 1) = some first := get?_of_drop split 1
      rcases signed with plus | minus
      · obtain rfl := Option.some.inj (plus.symm.trans next)
        contradiction
      · obtain rfl := Option.some.inj (minus.symm.trans next)
        contradiction
  | some sign =>
      have next : cursor.get? (start + 2) = some first := by
        cases sign <;> exact get?_of_drop split 2
      exact noDigit first next digit

theorem readExponent_of_bare
    (bare : cursor.BareSignAt (marker.hasLetter · = true) cursor.offset)
    : (cursor.readExponent marker).outcome
        = .ok (cursor.malformed (cursor.offset + 2) 0 .exponentExpected)
      ∧ (cursor.readExponent marker).cursor.offset = cursor.offset + 2 := by
  obtain ⟨body, rest, lexeme, split, spells⟩ := exists_spells bare.begins
  obtain ⟨outcome, place⟩ := readExponent_of_spells split spells
  cases spells with
  | digits _ present isRun => exact (not_bareSignAt_of_drop split present isRun.inside bare).elim
  | @bare letter sign =>
      have two : (letter :: Sign.written (some sign)).length = 2 := by cases sign <;> rfl
      rw [two] at place
      exact ⟨outcome, place⟩

theorem readExponent_of_digits (begins : cursor.BeginsExponent marker)
    (sound : ¬ cursor.BareSignAt (marker.hasLetter · = true) cursor.offset)
    : ∃ first stop,
        (first = cursor.offset + 1
          ∨ (first = cursor.offset + 2 ∧ cursor.SignAt (cursor.offset + 1)))
        ∧ first < stop
        ∧ cursor.RunsTo (·.isDigit = true) first stop
        ∧ (cursor.readExponent marker).outcome
          = .ok (cursor.complete stop
              ((if cursor.get? (cursor.offset + 1) = some '-' then -1 else 1)
                * (min 2147483647 (natural (cursor.between first stop)) : ℕ)))
        ∧ (cursor.readExponent marker).cursor.offset = stop := by
  obtain ⟨body, rest, lexeme, split, spells⟩ := exists_spells begins
  obtain ⟨outcome, place⟩ := readExponent_of_spells split spells
  cases spells with
  | bare marked noDigit =>
      exact (sound (bareSignAt_of_spells split (.bare marked noDigit) rfl fun _ same => same).1).elim
  | @digits letter sign digits _ marked present isRun =>
      obtain ⟨behind, runs⟩ := digitsRunTo_of_drop split isRun
      have nonempty := List.length_pos_iff.mpr present
      have minus := minus_iff_of_drop split present isRun.inside
      have ends : cursor.offset + (letter :: (Sign.written sign ++ digits)).length
          = cursor.offset + 1 + Sign.length sign + digits.length := by
        simp only [List.length_cons, List.length_append, Sign.length_written]
        omega
      have last : cursor.offset + (1 + (Sign.length sign + digits.length))
          = cursor.offset + 1 + Sign.length sign + digits.length := by
        omega
      rw [ends] at place
      refine ⟨cursor.offset + 1 + Sign.length sign, _, ?_, by omega, runs, ?_, place⟩
      · cases sign with
        | none => exact .inl rfl
        | some sign =>
            rw [List.cons_append, List.append_assoc] at split
            exact .inr ⟨rfl, signAt_of_drop (drop_succ_of_drop_cons split)⟩
      · rw [outcome, Outcome.ofLexeme, last, between_of_drop behind, Marker.saturate_eq_min,
          applyInt_eq_mul, complete]
        simp only [minus]
        rfl

/-- No exponent, a bare sign or digits: each comes to an outcome of its own kind. -/
theorem readExponent_cases (cursor : Cursor) (marker : Marker)
    : (¬ cursor.BeginsExponent marker
        ∧ (cursor.readExponent marker).outcome = .ok cursor.absent)
      ∨ (cursor.BareSignAt (marker.hasLetter · = true) cursor.offset
        ∧ (cursor.readExponent marker).outcome
          = .ok (cursor.malformed (cursor.offset + 2) 0 .exponentExpected))
      ∨ (cursor.BeginsExponent marker
        ∧ ¬ cursor.BareSignAt (marker.hasLetter · = true) cursor.offset
        ∧ ∃ stop value,
          (cursor.readExponent marker).outcome = .ok (cursor.complete stop value)
          ∧ -2147483647 ≤ value ∧ value ≤ 2147483647) := by
  by_cases begins : cursor.BeginsExponent marker
  · by_cases bare : cursor.BareSignAt (marker.hasLetter · = true) cursor.offset
    · exact .inr (.inl ⟨bare, (readExponent_of_bare bare).1⟩)
    · obtain ⟨_, stop, _, _, _, found, _⟩ := readExponent_of_digits begins bare
      refine .inr (.inr ⟨begins, bare, stop, _, found, ?_⟩)
      split <;> omega
  · exact .inl ⟨begins, (readExponent_of_absent begins).1⟩

/-- An exponent is read as it is written, except that it is kept within 32 bits. -/
theorem readExponent_saturates (cursor : Cursor) (marker : Marker)
    : cursor.ReadsExponent marker where
  absent_iff := by
    refine ⟨fun ⟨nothing, _⟩ => ?_, readExponent_of_absent⟩
    obtain ⟨absent, _⟩ | ⟨_, found⟩ | ⟨_, _, _, _, found, _⟩ := cursor.readExponent_cases marker
    · exact absent
    · cases nothing.symm.trans found
    · cases nothing.symm.trans found
  malformed_iff := by
    refine ⟨fun ⟨malformed, _⟩ => ?_, readExponent_of_bare⟩
    obtain ⟨_, found⟩ | ⟨bare, _⟩ | ⟨_, _, _, _, found, _⟩ := cursor.readExponent_cases marker
    · cases malformed.symm.trans found
    · exact bare
    · cases malformed.symm.trans found
  digits := readExponent_of_digits
  taken := by
    intro digits
    have saturated := Marker.foldl_appendDigit digits
    refine ⟨saturated, ?_⟩
    rw [saturated, IsInt32, Marker.limit]
    omega
  bounded := by
    intro outcome value found valued
    obtain ⟨_, absent⟩ | ⟨_, malformed⟩ | ⟨_, _, _, _, complete, bounds⟩ :=
      cursor.readExponent_cases marker
    · obtain rfl := Except.ok.inj (found.symm.trans absent)
      contradiction
    · obtain rfl := Except.ok.inj (found.symm.trans malformed)
      obtain rfl := Option.some.inj valued
      omega
    · obtain rfl := Except.ok.inj (found.symm.trans complete)
      obtain rfl := Option.some.inj valued
      exact bounds

end Cursor

end Numeral
