import Numeral.Proofs.Literal.Grammar

/-! How much of a text is taken by a literal and by each of its parts. Nothing reaches
behind the end, and what is found takes one code point at least, so a reader that goes on
behind it gets on.
-/

namespace Numeral

variable {α β : Type}

/-- A finder takes some of the text when it finds something, and no more than there is. -/
def TakesPart (find? : List Char → Option (Lexeme α)) : Prop :=
  ∀ text lexeme, find? text = some lexeme → 0 < lexeme.length ∧ lexeme.length ≤ text.length

/-- A change of the value leaves the part that is taken. -/
theorem TakesPart.map {find? : List Char → Option (Lexeme α)} (takes : TakesPart find?)
    (f : α → β)
    : TakesPart fun text => (find? text).map (·.map f) := by
  intro text lexeme found
  obtain ⟨inner, inside, rfl⟩ := Option.map_eq_some_iff.mp found
  exact takes text inner inside

theorem Sign.length_leading?_le (text : List Char)
    : Sign.length (Sign.leading? text) ≤ text.length := by
  cases text with
  | nil => simp [Sign.leading?, Sign.length]
  | cons c rest => cases h : Sign.leading? (c :: rest) <;> simp [Sign.length]

theorem Radix.significand?_takesPart (radix : Radix) (separators : Bool)
    : TakesPart (radix.significand? separators) := by
  intro text lexeme found
  obtain ⟨body, rest, rfl, spells⟩ := radix.significand?_spelled found
  rw [spells.length_eq, List.length_append]
  refine ⟨?_, Nat.le_add_right ..⟩
  cases spells with
  | @mk run whole fraction _ _ isRun digits behind =>
      have present : 0 < run.length := by
        apply List.length_pos_iff.mpr
        rintro rfl
        simp [Radix.wholeDigits?, Digit.values] at digits
      simp only [List.length_append]
      omega

theorem Marker.exponent?_takesPart (marker : Marker)
    : TakesPart marker.exponent? := by
  intro text lexeme found
  obtain ⟨body, rest, rfl, spells⟩ := exponent?_eq_some found
  rw [spells.length_eq, List.length_append]
  refine ⟨?_, Nat.le_add_right ..⟩
  cases spells <;> exact Nat.succ_pos _

theorem Marker.suffix?_takesPart
    : TakesPart suffix? := by
  intro text lexeme found
  obtain ⟨marker, exponent, present, rfl⟩ := suffix?_eq_some found
  exact marker.exponent?_takesPart text exponent present

theorem Binary64.length_scaleBy_le (x : Binary64) (scaleByTen : Int → Binary64)
    (text : List Char)
    : (x.scaleBy scaleByTen text).length ≤ text.length := by
  unfold Binary64.scaleBy
  split
  · simp
  · next exponent found => exact (Marker.suffix?_takesPart text exponent found).2

theorem Radix.literal?_takesPart (radix : Radix) (options : Options)
    : TakesPart (radix.literal? options) := by
  intro text lexeme found
  obtain ⟨significand, before, rfl⟩ := Option.map_eq_some_iff.mp found
  have inside := radix.significand?_takesPart options.digitSeparators text significand before
  split
  · exact inside
  · have behind := Binary64.length_scaleBy_le (radix.value significand.value)
      (radix.valueTimesTen significand.value) (text.drop significand.length)
    simp only [List.length_drop] at behind
    simp only [Lexeme.length_extend]
    omega

namespace Options

/-- A literal is one of a radix that is allowed. -/
theorem literal?_eq_some {options : Options} {text : List Char}
    {lexeme : Lexeme (Radix × Binary64)} (found : options.literal? text = some lexeme)
    : ∃ radix literal,
        options.allows radix = true
        ∧ radix.literal? options text = some literal
        ∧ lexeme = literal.map (radix, ·) := by
  obtain ⟨radix, _, tried⟩ := List.exists_of_findSome?_eq_some found
  split at tried
  next allowed =>
    obtain ⟨literal, inner, rfl⟩ := Option.map_eq_some_iff.mp tried
    exact ⟨radix, literal, allowed, inner, rfl⟩
  next => contradiction

theorem literal?_takesPart (options : Options)
    : TakesPart options.literal? := by
  intro text lexeme found
  obtain ⟨radix, literal, _, inner, rfl⟩ := literal?_eq_some found
  exact radix.literal?_takesPart options text literal inner

theorem number?_takesPart (options : Options)
    : TakesPart options.number? :=
  options.literal?_takesPart.map Prod.snd

theorem signedNumber?_takesPart (options : Options)
    : TakesPart options.signedNumber? := by
  intro text lexeme found
  obtain ⟨number, inner, rfl⟩ := Option.map_eq_some_iff.mp found
  have inside := options.number?_takesPart _ number inner
  have signInside := Sign.length_leading?_le text
  simp only [List.length_drop] at inside
  simp only [Lexeme.length_extend, Lexeme.length_map]
  omega

end Options

end Numeral
