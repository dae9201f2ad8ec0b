import Numeral.Literal.Basic
import Numeral.Proofs.Decimal.Notation

/-! The grammar of literals, part by part and apart from the readers: which characters a part
takes, what may stand behind them, and what they are read as. A reader finds exactly what its
part of the grammar spells, so that what it found can be taken for the shape of its text.
-/

namespace Numeral

-----------------------------------------------------------------------------------------
-- Runs and digits
-----------------------------------------------------------------------------------------

/-- Of the text `run ++ rest` the part `run` is the longest beginning that passes. -/
structure IsRun (passes : Char → Bool) (run rest : List Char) : Prop where
  inside : ∀ c ∈ run, passes c = true
  ends : ∀ c ∈ rest.head?, passes c = false

theorem IsRun.takeWhile_append {passes : Char → Bool} {run rest : List Char}
    (isRun : IsRun passes run rest)
    : (run ++ rest).takeWhile passes = run := by
  have stops : rest.takeWhile passes = [] := by
    cases rest with
    | nil => rfl
    | cons c after => rw [List.takeWhile_cons, isRun.ends c rfl, if_neg Bool.false_ne_true]
  rw [List.takeWhile_append_of_pos isRun.inside, stops, List.append_nil]

theorem exists_isRun (passes : Char → Bool) (text : List Char)
    : ∃ run rest, text = run ++ rest ∧ IsRun passes run rest := by
  refine ⟨text.takeWhile passes, text.dropWhile passes, ?_,
    List.all_eq_true.mp List.all_takeWhile, ?_⟩
  · rw [List.takeWhile_append_dropWhile]
  · intro c first
    have stops := List.head?_dropWhile_not passes text
    rw [Option.mem_def.mp first] at stops
    simpa using stops

/-- The digits of `radix`, character by character. -/
def Radix.HasDigit (radix : Radix) (c : Char) : Prop :=
  match radix with
  | binary => c = '0' ∨ c = '1'
  | hexadecimal => c.isDigit = true ∨ ('a' ≤ c ∧ c ≤ 'f') ∨ ('A' ≤ c ∧ c ≤ 'F')
  | decimal => c.isDigit = true

theorem Digit.isDigit_eq_any (base : Nat) (c : Char)
    : isDigit base c = (hexadecimal? c).any (· < base) :=
  Option.isSome_filter

theorem Digit.le_iff_toNat_le (a b : Char)
    : a ≤ b ↔ a.toNat ≤ b.toNat := by
  rw [Char.le_def, UInt32.le_iff_toNat_le, Char.toNat_val, Char.toNat_val]

/-- The digits of `radix` are those that its base gives a value. -/
theorem Radix.isDigit_base_iff (radix : Radix) (c : Char)
    : Digit.isDigit radix.base c = true ↔ radix.HasDigit c := by
  cases radix with
  | decimal => rw [base, Digit.isDigit_ten, HasDigit]
  | binary =>
      rw [HasDigit, ← Char.toNat_inj, ← Char.toNat_inj, Digit.isDigit_eq_any]
      simp only [base, Digit.hexadecimal?, Digit.le_iff_toNat_le, Char.reduceToNat]
      grind
  | hexadecimal =>
      rw [HasDigit, ← Digit.between_zero_nine_iff, Digit.isDigit_eq_any]
      simp only [base, Digit.hexadecimal?, Digit.le_iff_toNat_le, Char.reduceToNat]
      grind

-----------------------------------------------------------------------------------------
-- Significands
-----------------------------------------------------------------------------------------

namespace Radix

/-- With `rest` behind it the text `body` is all that follows a whole part, read as the lexeme.
A separator is taken where none may stand, and where it may not end the digits either.
-/
inductive SpellsFraction (radix : Radix) (separators : Bool)
    : List Char → List Char → Lexeme (List Nat) → Prop
  | absent {rest} (noPoint : rest.head? ≠ some '.')
    : SpellsFraction radix separators [] rest ⟨0, [], none⟩
  | pointed {digits rest}
    (isRun : IsRun (radix.continues (separators && radix.fractionFault?.isNone)) digits rest)
    (sound : radix.fractionFault?.isSome = true → rest.head? ≠ some '_')
    : SpellsFraction radix separators ('.' :: digits) rest
        ⟨digits.length + 1, Digit.values radix.base digits, none⟩
  | separated {digits rest fault} (faulty : radix.fractionFault? = some fault)
    (inside : ∀ c ∈ digits, radix.continues false c = true)
    : SpellsFraction radix separators ('.' :: (digits ++ ['_'])) rest
        ⟨digits.length + 2, Digit.values radix.base digits, some fault⟩

/-- With `rest` behind it the text `body` is a significand, read as the lexeme. -/
inductive SpellsSignificand (radix : Radix) (separators : Bool)
    : List Char → List Char → Lexeme Significand → Prop
  | mk {run whole fraction rest point}
    (isRun : IsRun (radix.continues separators) run (fraction ++ rest))
    (digits : radix.wholeDigits? run = some whole)
    (behind : SpellsFraction radix separators fraction rest point)
    : SpellsSignificand radix separators (radix.lead ++ (run ++ fraction)) rest
        ((point.map (Significand.mk whole)).extend (radix.lead.length + run.length))

variable {radix : Radix} {separators : Bool} {text body rest : List Char}

theorem continues_underscore (radix : Radix)
    : radix.continues false '_' = false := by
  simp [continues, Digit.isDigit, Digit.value?_underscore]

theorem run_append {run : List Char} (isRun : IsRun (radix.continues separators) run rest)
    : radix.run separators (run ++ rest) = run :=
  isRun.takeWhile_append

theorem wholeDigits?_eq_some {run : List Char} {digits : List Nat}
    (found : radix.wholeDigits? run = some digits)
    : digits = Digit.values radix.base run ∧ digits ≠ [] := by
  unfold wholeDigits? at found
  dsimp only at found
  split at found
  next => contradiction
  next present =>
    obtain rfl := Option.some.inj found
    exact ⟨rfl, fun empty => present (.inl empty)⟩

theorem SpellsFraction.length_eq {lexeme : Lexeme (List Nat)}
    (spells : SpellsFraction radix separators body rest lexeme)
    : lexeme.length = body.length := by
  cases spells <;> simp

theorem SpellsFraction.read {lexeme : Lexeme (List Nat)}
    (spells : SpellsFraction radix separators body rest lexeme)
    : radix.fraction separators (body ++ rest) = lexeme := by
  cases spells with
  | absent noPoint =>
      rw [List.nil_append, fraction]
      rintro _ rfl
      exact noPoint rfl
  | pointed isRun sound =>
      simp only [fraction, List.cons_append, run_append isRun, List.drop_left]
      split
      next faulty => exact if_neg (sound (Option.isSome_of_eq_some faulty))
      next => rfl
  | separated faulty inside =>
      have isRun : IsRun (radix.continues false) _ ('_' :: rest) :=
        ⟨inside, by simp [continues_underscore]⟩
      have taken := run_append isRun
      simp [fraction, faulty, taken]

theorem exists_spellsFraction (radix : Radix) (separators : Bool) (text : List Char)
    : ∃ body rest lexeme,
        text = body ++ rest ∧ SpellsFraction radix separators body rest lexeme := by
  by_cases point : text.head? = some '.'
  · obtain ⟨behind, rfl⟩ := List.head?_eq_some_iff.mp point
    obtain ⟨digits, rest, rfl, isRun⟩ :=
      exists_isRun (radix.continues (separators && radix.fractionFault?.isNone)) behind
    by_cases faulty : radix.fractionFault?.isSome = true ∧ rest.head? = some '_'
    · obtain ⟨fault, found⟩ := Option.isSome_iff_exists.mp faulty.1
      obtain ⟨after, rfl⟩ := List.head?_eq_some_iff.mp faulty.2
      refine ⟨'.' :: (digits ++ ['_']), after, _, by simp, .separated found ?_⟩
      simpa [found] using isRun.inside
    · exact ⟨'.' :: digits, rest, _, rfl,
        .pointed isRun fun some separator => faulty ⟨some, separator⟩⟩
  · exact ⟨[], text, _, rfl, .absent point⟩

theorem SpellsSignificand.length_eq {lexeme : Lexeme Significand}
    (spells : SpellsSignificand radix separators body rest lexeme)
    : lexeme.length = body.length := by
  obtain ⟨_, _, behind⟩ := spells
  have inside := behind.length_eq
  simp only [Lexeme.length_extend, Lexeme.length_map, List.length_append]
  omega

/-- The reader finds what is spelled. -/
theorem SpellsSignificand.read {lexeme : Lexeme Significand}
    (spells : SpellsSignificand radix separators body rest lexeme)
    : radix.significand? separators (body ++ rest) = some lexeme := by
  obtain ⟨isRun, digits, behind⟩ := spells
  rw [List.append_assoc, List.append_assoc]
  unfold significand?
  rw [if_pos (List.isPrefixOf_iff_prefix.mpr (List.prefix_append ..)), List.drop_left]
  simp only [run_append isRun, digits, List.drop_left, behind.read, Option.map_some]

/-- What the reader finds is spelled by the characters it takes. -/
theorem significand?_spelled {lexeme : Lexeme Significand}
    (found : radix.significand? separators text = some lexeme)
    : ∃ body rest,
        text = body ++ rest ∧ SpellsSignificand radix separators body rest lexeme := by
  unfold significand? at found
  split at found
  next lead =>
    obtain ⟨behind, rfl⟩ := List.isPrefixOf_iff_prefix.mp lead
    obtain ⟨run, tail, rfl, isRun⟩ := exists_isRun (radix.continues separators) behind
    obtain ⟨fraction, rest, point, rfl, spells⟩ :=
      exists_spellsFraction radix separators tail
    simp only [List.drop_left, run_append isRun, spells.read] at found
    obtain ⟨whole, digits, rfl⟩ := Option.map_eq_some_iff.mp found
    exact ⟨radix.lead ++ (run ++ fraction), rest, by simp, .mk isRun digits spells⟩
  next => contradiction

/-- The literal of a significand with `rest` behind it. -/
def literalFrom (radix : Radix) (significand : Lexeme Significand) (rest : List Char)
    : Lexeme Binary64 :=
  if significand.fault.isSome then significand.map radix.value
  else
    ((radix.value significand.value).scaleBy (radix.valueTimesTen significand.value)
      rest).extend significand.length

theorem literalFrom_nil (radix : Radix) {significand : Lexeme Significand}
    (sound : significand.fault = none)
    : radix.literalFrom significand [] = significand.map radix.value := by
  simp [literalFrom, sound, Binary64.scaleBy, Marker.suffix?, Marker.exponent?, Lexeme.extend,
    Lexeme.map]

theorem SpellsSignificand.literal? {options : Options} {significand : Lexeme Significand}
    (spells : radix.SpellsSignificand options.digitSeparators body rest significand)
    : radix.literal? options (body ++ rest) = some (radix.literalFrom significand rest) := by
  simp only [Radix.literal?, spells.read, Option.map_some, literalFrom, spells.length_eq,
    List.drop_left]

/-- A literal is a significand and what goes on behind it. -/
theorem literal?_spelled {options : Options} {literal : Lexeme Binary64}
    (found : radix.literal? options text = some literal)
    : ∃ body rest significand,
        text = body ++ rest
        ∧ SpellsSignificand radix options.digitSeparators body rest significand
        ∧ literal = radix.literalFrom significand rest := by
  obtain ⟨significand, before, -⟩ := Option.map_eq_some_iff.mp found
  obtain ⟨body, rest, rfl, spells⟩ := significand?_spelled before
  rw [spells.literal?] at found
  exact ⟨body, rest, significand, rfl, spells, (Option.some.inj found).symm⟩

end Radix

-----------------------------------------------------------------------------------------
-- Exponents
-----------------------------------------------------------------------------------------

namespace Marker

/-- With `rest` behind it the text `body` is an exponent with the marker, read as the lexeme. -/
inductive SpellsExponent (marker : Marker) : List Char → List Char → Lexeme Int → Prop
  | digits {letter sign digits rest} (marked : marker.hasLetter letter = true)
    (present : digits ≠ []) (isRun : IsRun (Digit.isDigit 10) digits rest)
    : SpellsExponent marker (letter :: (Sign.written sign ++ digits)) rest
        ⟨1 + (Sign.length sign + digits.length),
          Sign.applyInt sign (saturate (Digit.values 10 digits)), none⟩
  | bare {letter sign rest} (marked : marker.hasLetter letter = true)
    (noDigit : ∀ c ∈ rest.head?, Digit.isDigit 10 c = false)
    : SpellsExponent marker (letter :: Sign.written (some sign)) rest
        ⟨2, 0, some .exponentExpected⟩

variable {marker : Marker} {text body rest : List Char} {lexeme : Lexeme Int}

theorem SpellsExponent.length_eq (spells : SpellsExponent marker body rest lexeme)
    : lexeme.length = body.length := by
  cases spells <;> simp [Nat.add_comm, Sign.length]

theorem leading?_of_isRun {digits : List Char} (present : digits ≠ [])
    (isRun : IsRun (Digit.isDigit 10) digits rest)
    : Sign.leading? (digits ++ rest) = none := by
  obtain ⟨c, others, rfl⟩ := List.exists_cons_of_ne_nil present
  have digit := isRun.inside c List.mem_cons_self
  rw [Digit.isDigit_ten] at digit
  exact Sign.leading?_cons_of_isDigit digit _

/-- The reader finds what is spelled. -/
theorem SpellsExponent.read (spells : SpellsExponent marker body rest lexeme)
    : marker.exponent? (body ++ rest) = some lexeme := by
  cases spells with
  | @digits letter sign digits _ marked present isRun =>
      have signed : Sign.leading? (Sign.written sign ++ (digits ++ rest)) = sign :=
        Sign.leading?_written_append (leading?_of_isRun present isRun) sign
      rw [List.cons_append, List.append_assoc]
      simp only [exponent?, marked, if_true, signedDigits?, signed, Sign.drop_length_written,
        isRun.takeWhile_append, present, if_false, Option.map_some]
      rfl
  | @bare letter sign _ marked noDigit =>
      have isRun : IsRun (Digit.isDigit 10) [] rest := ⟨by simp, noDigit⟩
      have signed : Sign.leading? (Sign.written (some sign) ++ rest) = some sign := by
        cases sign <;> rfl
      have taken : rest.takeWhile (Digit.isDigit 10) = [] := isRun.takeWhile_append
      rw [List.cons_append]
      simp only [exponent?, marked, if_true, signedDigits?, signed, Sign.drop_length_written, taken,
        Option.map_some]
      rfl

/-- What the reader finds is spelled by the characters it takes. -/
theorem exponent?_eq_some (found : marker.exponent? text = some lexeme)
    : ∃ body rest, text = body ++ rest ∧ SpellsExponent marker body rest lexeme := by
  cases text with
  | nil => contradiction
  | cons letter behind =>
      simp only [exponent?] at found
      split at found
      next marked =>
        obtain ⟨inner, digits, rfl⟩ := Option.map_eq_some_iff.mp found
        have signed := Sign.written_append_drop behind
        obtain ⟨run, rest, split, isRun⟩ := exists_isRun (Digit.isDigit 10)
          (behind.drop (Sign.length (Sign.leading? behind)))
        rw [split] at signed
        simp only [signedDigits?, split, isRun.takeWhile_append] at digits
        by_cases none : run = []
        · rw [if_pos none] at digits
          obtain ⟨sign, leading, rfl⟩ := Option.map_eq_some_iff.mp digits
          subst none
          rw [leading] at signed
          refine ⟨letter :: Sign.written (some sign), rest, ?_, .bare marked isRun.ends⟩
          rw [← signed]
          rfl
        · rw [if_neg none] at digits
          obtain rfl := Option.some.inj digits
          refine ⟨letter :: (Sign.written (Sign.leading? behind) ++ run), rest, ?_,
            .digits marked none isRun⟩
          rw [List.cons_append, List.append_assoc, signed]
      next => contradiction

/-- What either marker finds one of them finds. -/
theorem suffix?_eq_some {suffix : Lexeme (Marker × Int)} (found : suffix? text = some suffix)
    : ∃ marker exponent,
        exponent? marker text = some exponent ∧ suffix = exponent.map (marker, ·) := by
  rcases Option.or_eq_some_iff.mp found with first | ⟨-, second⟩
  · obtain ⟨exponent, present, rfl⟩ := Option.map_eq_some_iff.mp first
    exact ⟨decimal, exponent, present, rfl⟩
  · obtain ⟨exponent, present, rfl⟩ := Option.map_eq_some_iff.mp second
    exact ⟨binary, exponent, present, rfl⟩

/-- An exponent begins with a marker and a sign or a digit behind it. -/
theorem exponent?_isSome_iff (marker : Marker) (text : List Char)
    : (marker.exponent? text).isSome = true
      ↔ ∃ letter next,
          text.take 2 = [letter, next]
          ∧ marker.hasLetter letter = true
          ∧ ((Sign.ofChar? next).isSome = true ∨ next.isDigit = true) := by
  constructor
  · intro some
    obtain ⟨lexeme, found⟩ := Option.isSome_iff_exists.mp some
    obtain ⟨body, rest, rfl, spells⟩ := exponent?_eq_some found
    cases spells with
    | @digits letter sign digits _ marked present isRun =>
        obtain ⟨first, others, rfl⟩ := List.exists_cons_of_ne_nil present
        have digit := isRun.inside first List.mem_cons_self
        rw [Digit.isDigit_ten] at digit
        rcases sign with _ | _ | _
        · exact ⟨letter, first, rfl, marked, .inr digit⟩
        · exact ⟨letter, '+', rfl, marked, .inl rfl⟩
        · exact ⟨letter, '-', rfl, marked, .inl rfl⟩
    | @bare letter sign _ marked _ =>
        cases sign
        · exact ⟨letter, '+', rfl, marked, .inl rfl⟩
        · exact ⟨letter, '-', rfl, marked, .inl rfl⟩
  · rintro ⟨letter, next, start, marked, signOrDigit⟩
    obtain ⟨rest, rfl⟩ : ∃ rest, text = letter :: next :: rest :=
      ⟨text.drop 2, by rw [← List.take_append_drop 2 text, start]; simp⟩
    simp only [exponent?, marked, if_true, Option.isSome_map, signedDigits?]
    split
    next none =>
      rw [Option.isSome_map]
      rcases signOrDigit with sign | digit
      · exact sign
      · rw [Sign.leading?_cons_of_isDigit digit rest] at none
        simp [Sign.length, Digit.isDigit_ten, digit] at none
    next => rfl

end Marker

end Numeral
