import Numeral.Proofs.Literal.SingleRounding

/-! The places of a literal, told from the characters of the text alone: where a run of digits
ends, and whether an exponent stands behind it. What a part of the grammar spells ends at them.
-/

namespace Numeral

namespace Cursor

/-- The longest run of characters that pass and begin at `start` ends at `stop`. -/
structure RunsTo (cursor : Cursor) (passes : Char → Prop) (start stop : Nat) : Prop where
  order : start ≤ stop
  inside : ∀ place, start ≤ place → place < stop → ∃ c ∈ cursor.get? place, passes c
  ends : ∀ c ∈ cursor.get? stop, ¬ passes c

/-- Behind a whole part that ends at `whole` the digits end at `stop`: with the run behind a point
if there is one, and with the whole part if not.
-/
def FractionRunsTo (cursor : Cursor) (passes : Char → Prop) (whole stop : Nat) : Prop :=
  (cursor.get? whole = some '.' ∧ cursor.RunsTo passes (whole + 1) stop)
  ∨ (cursor.get? whole ≠ some '.' ∧ stop = whole)

/-- A sign stands at `place`. -/
def SignAt (cursor : Cursor) (place : Nat) : Prop :=
  cursor.get? place = some '+' ∨ cursor.get? place = some '-'

/-- From `start` to `stop` stand a marker, a sign that may be left out, and the longest run of
digits behind them, which holds one at least.
-/
def ExponentRunsTo (cursor : Cursor) (marks : Char → Prop) (start stop : Nat) : Prop :=
  (∃ letter ∈ cursor.get? start, marks letter)
  ∧ ∃ first,
      (first = start + 1 ∨ (first = start + 2 ∧ cursor.SignAt (start + 1)))
      ∧ first < stop
      ∧ cursor.RunsTo (·.isDigit = true) first stop

/-- A marker and a sign stand at `place`, without a digit behind them. -/
def BareSignAt (cursor : Cursor) (marks : Char → Prop) (place : Nat) : Prop :=
  (∃ letter ∈ cursor.get? place, marks letter)
  ∧ cursor.SignAt (place + 1)
  ∧ ∀ c ∈ cursor.get? (place + 2), ¬ c.isDigit = true

variable {cursor : Cursor} {passes marks : Char → Prop} {start stop : Nat}
  {run body rest : List Char}

theorem get?_of_drop {text : List Char} (split : cursor.text.drop start = text) (index : Nat)
    : cursor.get? (start + index) = text[index]? := by
  rw [← split, List.getElem?_drop, get?]

theorem RunsTo.unique {other : Nat} (runs : cursor.RunsTo passes start stop)
    (again : cursor.RunsTo passes start other)
    : other = stop := by
  rcases Nat.lt_trichotomy other stop with less | same | more
  · obtain ⟨c, here, passing⟩ := runs.inside other again.order less
    exact (again.ends c here passing).elim
  · exact same
  · obtain ⟨c, here, passing⟩ := again.inside stop runs.order more
    exact (runs.ends c here passing).elim

theorem RunsTo.of_isRun {test : Char → Bool} (tests : ∀ c, test c = true ↔ passes c)
    (split : cursor.text.drop start = run ++ rest) (isRun : IsRun test run rest)
    : cursor.RunsTo passes start (start + run.length) where
  order := Nat.le_add_right ..
  inside := by
    intro place behind before
    obtain ⟨index, rfl⟩ := Nat.exists_eq_add_of_le behind
    have inRun : index < run.length := by omega
    refine ⟨run[index], ?_, (tests _).mp (isRun.inside _ (List.getElem_mem inRun))⟩
    rw [get?_of_drop split, List.getElem?_append_left inRun, List.getElem?_eq_getElem inRun]
    rfl
  ends := by
    intro c here passing
    rw [get?_of_drop split, List.getElem?_append_right (Nat.le_refl _), Nat.sub_self,
      ← List.head?_eq_getElem?] at here
    have stops := isRun.ends c here
    rw [(tests c).mpr passing] at stops
    contradiction

-----------------------------------------------------------------------------------------
-- Exponents
-----------------------------------------------------------------------------------------

theorem drop_of_drop_append {front : List Char}
    (split : cursor.text.drop start = front ++ rest)
    : cursor.text.drop (start + front.length) = rest := by
  rw [← List.drop_drop, split, List.drop_left]

theorem drop_succ_of_drop_cons {c : Char} (split : cursor.text.drop start = c :: rest)
    : cursor.text.drop (start + 1) = rest := by
  rw [← List.drop_drop, split, List.drop_one, List.tail_cons]

theorem signAt_of_drop {sign : Sign}
    (split : cursor.text.drop start = Sign.written (some sign) ++ rest)
    : cursor.SignAt start := by
  have here := get?_of_drop split 0
  cases sign with
  | plus => exact .inl here
  | minus => exact .inr here

/-- Digits that are spelled behind a letter and a sign run to their end. -/
theorem digitsRunTo_of_drop {letter : Char} {sign : Option Sign} {digits : List Char}
    (split : cursor.text.drop start = letter :: (Sign.written sign ++ digits) ++ rest)
    (isRun : IsRun (Digit.isDigit 10) digits rest)
    : cursor.text.drop (start + 1 + Sign.length sign) = digits ++ rest
      ∧ cursor.RunsTo (·.isDigit = true) (start + 1 + Sign.length sign)
          (start + 1 + Sign.length sign + digits.length) := by
  rw [List.cons_append, List.append_assoc] at split
  have behind := drop_of_drop_append (drop_succ_of_drop_cons split)
  rw [Sign.length_written] at behind
  exact ⟨behind, .of_isRun (fun c => by rw [Digit.isDigit_ten]) behind isRun⟩

/-- What is spelled as an exponent ends where the places say. -/
theorem exponentRunsTo_of_spells {marker : Marker} {lexeme : Lexeme Int}
    (split : cursor.text.drop start = body ++ rest)
    (spells : marker.SpellsExponent body rest lexeme) (sound : lexeme.fault = none)
    (marked : ∀ c, marker.hasLetter c = true → marks c)
    : cursor.ExponentRunsTo marks start (start + body.length) := by
  cases spells with
  | @digits letter sign digits _ isMarker present isRun =>
      have runs := (digitsRunTo_of_drop split isRun).2
      rw [List.cons_append, List.append_assoc] at split
      have first := drop_succ_of_drop_cons split
      have nonempty := List.length_pos_iff.mpr present
      have ends : start + (letter :: (Sign.written sign ++ digits)).length
          = start + 1 + Sign.length sign + digits.length := by
        simp only [List.length_cons, List.length_append, Sign.length_written]
        omega
      rw [ends]
      refine ⟨⟨letter, get?_of_drop split 0, marked letter isMarker⟩,
        start + 1 + Sign.length sign, ?_, by omega, runs⟩
      cases sign with
      | none => exact .inl rfl
      | some sign => exact .inr ⟨rfl, signAt_of_drop first⟩
  | bare => contradiction

theorem bareSignAt_of_spells {marker : Marker} {lexeme : Lexeme Int} {fault : Fault}
    (split : cursor.text.drop start = body ++ rest)
    (spells : marker.SpellsExponent body rest lexeme) (faulty : lexeme.fault = some fault)
    (marked : ∀ c, marker.hasLetter c = true → marks c)
    : cursor.BareSignAt marks start ∧ fault = .exponentExpected ∧ body.length = 2 := by
  cases spells with
  | digits => contradiction
  | @bare letter sign _ isMarker noDigit =>
      have first : cursor.text.drop (start + 1) = Sign.written (some sign) ++ rest :=
        drop_succ_of_drop_cons split
      have length : (Sign.written (some sign)).length = 1 := Sign.length_written _
      refine ⟨⟨⟨letter, get?_of_drop split 0, marked letter isMarker⟩, signAt_of_drop first, ?_⟩,
        (Option.some.inj faulty).symm, by rw [List.length_cons, length]⟩
      intro c here digit
      have second := drop_of_drop_append first
      rw [length] at second
      have next := get?_of_drop second 0
      rw [← List.head?_eq_getElem?] at next
      have stops := noDigit c (next ▸ here)
      rw [Digit.isDigit_ten, digit] at stops
      contradiction

/-- A marker with a sign or a digit behind it is found. -/
theorem suffix?_isSome_of_marked {marker : Marker} {letter next : Char}
    (here : cursor.get? start = some letter) (marked : marker.hasLetter letter = true)
    (behind : cursor.get? (start + 1) = some next)
    (signOrDigit : (Sign.ofChar? next).isSome = true ∨ next.isDigit = true)
    : (Marker.suffix? (cursor.text.drop start)).isSome = true := by
  have begins : (cursor.text.drop start).take 2 = [letter, next] := by
    rw [get?] at here behind
    rw [List.take_add_one, List.take_add_one, List.getElem?_drop, List.getElem?_drop]
    simp [here, behind]
  have found := (marker.exponent?_isSome_iff _).mpr ⟨letter, next, begins, marked, signOrDigit⟩
  rw [Marker.suffix?, Option.isSome_or, Option.isSome_map, Option.isSome_map]
  cases marker with
  | decimal => rw [found, Bool.true_or]
  | binary => rw [found, Bool.or_true]

/-- Where no exponent is found none stands, and no sign behind a marker. -/
theorem not_exponent_of_suffix?
    (marked : ∀ c, marks c → ∃ marker : Marker, marker.hasLetter c = true)
    (nothing : Marker.suffix? (cursor.text.drop start) = none)
    : (∀ stop, ¬ cursor.ExponentRunsTo marks start stop) ∧ ¬ cursor.BareSignAt marks start := by
  have signless (letter : ∃ letter ∈ cursor.get? start, marks letter)
      : ¬ cursor.SignAt (start + 1) := by
    obtain ⟨letter, here, marks⟩ := letter
    obtain ⟨marker, isMarker⟩ := marked letter marks
    rintro (plus | minus)
    · have found := suffix?_isSome_of_marked here isMarker plus (.inl rfl)
      simp [nothing] at found
    · have found := suffix?_isSome_of_marked here isMarker minus (.inl rfl)
      simp [nothing] at found
  refine ⟨?_, fun bare => signless bare.1 bare.2.1⟩
  rintro stop ⟨letter, first, rfl | ⟨-, sign⟩, digit, runs⟩
  · obtain ⟨next, behind, isDigit⟩ := runs.inside (start + 1) (Nat.le_refl _) digit
    obtain ⟨letter, here, marks⟩ := letter
    obtain ⟨marker, isMarker⟩ := marked letter marks
    have found := suffix?_isSome_of_marked here isMarker behind (.inr isDigit)
    simp [nothing] at found
  · exact signless letter sign

end Cursor

end Numeral
