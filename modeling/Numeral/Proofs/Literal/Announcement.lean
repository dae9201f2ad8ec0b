import Numeral.Proofs.Literal.Grammar

/-! Which radix a literal has. It can be told from the lead, the separators behind it and the
first digit, so that no literal has to be tried: a radix finds a literal exactly where one is
announced, and at most one of those with a lead is.
-/

namespace Numeral

namespace Radix

/-- The text begins with the lead of the radix and a digit. Separators stand between them only
if they are allowed and there is a lead.
-/
def Announced (radix : Radix) (separators : Bool) (text : List Char) : Prop :=
  ∃ gap digit rest,
    text = radix.lead ++ (List.replicate gap '_' ++ digit :: rest)
    ∧ radix.HasDigit digit
    ∧ (gap = 0 ∨ (separators = true ∧ radix.lead ≠ []))

variable {radix : Radix} {separators : Bool} {text : List Char}

theorem not_hasDigit_underscore (radix : Radix)
    : ¬ radix.HasDigit '_' := by
  simp [← isDigit_base_iff, Digit.isDigit, Digit.value?_underscore]

/-- A run holds a digit if one stands behind separators that belong to the run. -/
theorem values_run_ne_nil_iff (radix : Radix) (separators : Bool) (text : List Char)
    : Digit.values radix.base (radix.run separators text) ≠ []
      ↔ ∃ gap digit rest,
          text = List.replicate gap '_' ++ digit :: rest
          ∧ radix.HasDigit digit
          ∧ (gap = 0 ∨ separators = true) := by
  constructor
  · induction text with
    | nil => simp [run, Digit.values]
    | cons c rest ih =>
        intro present
        by_cases digit : Digit.isDigit radix.base c = true
        · exact ⟨0, c, rest, rfl, (radix.isDigit_base_iff c).mp digit, .inl rfl⟩
        by_cases separator : separators = true ∧ c = '_'
        · obtain ⟨rfl, rfl⟩ := separator
          have same : Digit.values radix.base (radix.run true ('_' :: rest))
              = Digit.values radix.base (radix.run true rest) := by
            simp [run, continues, Digit.values, Digit.value?_underscore]
          obtain ⟨gap, digit, behind, rfl, isDigit, -⟩ := ih (same ▸ present)
          exact ⟨gap + 1, digit, behind, rfl, isDigit, .inr rfl⟩
        · have stops : radix.continues separators c = false := by
            simpa [continues, digit] using separator
          simp [run, stops, Digit.values] at present
  · rintro ⟨gap, digit, rest, rfl, isDigit, allowed⟩ none
    have gapContinues : ∀ c ∈ List.replicate gap '_', radix.continues separators c = true := by
      intro c member
      obtain ⟨nonempty, rfl⟩ := List.mem_replicate.mp member
      have separated : separators = true := allowed.resolve_left nonempty
      simp [continues, separated]
    have value := (radix.isDigit_base_iff digit).mpr isDigit
    have continued : radix.continues separators digit = true := by simp [continues, value]
    have taken : digit ∈ radix.run separators (List.replicate gap '_' ++ digit :: rest) := by
      rw [run, List.takeWhile_append_of_pos gapContinues, List.takeWhile_cons, if_pos continued]
      simp
    have missed := (Digit.values_eq_nil_iff radix.base _).mp none digit taken
    simp [value] at missed

/-- A run begins with a separator only if the text does. -/
theorem head?_run_eq_underscore {gap : Nat} {digit : Char} {rest : List Char}
    (isDigit : radix.HasDigit digit) (allowed : gap = 0 ∨ separators = true)
    : (radix.run separators (List.replicate gap '_' ++ digit :: rest)).head? = some '_'
      ↔ gap ≠ 0 := by
  cases gap with
  | zero =>
      have value := (radix.isDigit_base_iff digit).mpr isDigit
      have ordinary : digit ≠ '_' := by
        rintro rfl
        exact radix.not_hasDigit_underscore isDigit
      simp [run, continues, value, ordinary]
  | succ gap =>
      have separated : separators = true := allowed.resolve_left (Nat.succ_ne_zero gap)
      simp [run, continues, separated, List.replicate_succ]

/-- The digits of a whole part are there if a digit is, at once where there is no lead. -/
theorem wholeDigits?_isSome_iff
    : (radix.wholeDigits? (radix.run separators text)).isSome = true
      ↔ ∃ gap digit rest,
          text = List.replicate gap '_' ++ digit :: rest
          ∧ radix.HasDigit digit
          ∧ (gap = 0 ∨ (separators = true ∧ radix.lead ≠ [])) := by
  have found : (radix.wholeDigits? (radix.run separators text)).isSome = true
      ↔ Digit.values radix.base (radix.run separators text) ≠ []
        ∧ (radix.lead = [] → (radix.run separators text).head? ≠ some '_') := by
    simp only [wholeDigits?]
    split
    next refused =>
      refine ⟨fun impossible => by contradiction, ?_⟩
      rintro ⟨present, atOnce⟩
      exact (refused.elim present fun first => atOnce first.1 first.2).elim
    next kept =>
      rw [not_or, not_and] at kept
      exact ⟨fun _ => kept, fun _ => rfl⟩
  rw [found, values_run_ne_nil_iff]
  constructor
  · rintro ⟨⟨gap, digit, rest, rfl, isDigit, allowed⟩, atOnce⟩
    refine ⟨gap, digit, rest, rfl, isDigit, ?_⟩
    by_cases none : gap = 0
    · exact .inl none
    · exact .inr ⟨allowed.resolve_left none, fun noLead =>
        atOnce noLead ((head?_run_eq_underscore isDigit allowed).mpr none)⟩
  · rintro ⟨gap, digit, rest, rfl, isDigit, allowed⟩
    have separated : gap = 0 ∨ separators = true := allowed.imp_right And.left
    refine ⟨⟨gap, digit, rest, rfl, isDigit, separated⟩, fun noLead begins => ?_⟩
    have nonempty := (head?_run_eq_underscore isDigit separated).mp begins
    exact (allowed.resolve_left nonempty).2 noLead

/-- A significand is found exactly where one is announced. -/
theorem significand?_isSome_iff
    : (radix.significand? separators text).isSome = true
      ↔ radix.Announced separators text := by
  unfold significand? Announced
  split
  next lead =>
    obtain ⟨behind, rfl⟩ := List.isPrefixOf_iff_prefix.mp lead
    simp only [List.drop_left, Option.isSome_map, List.append_cancel_left_eq,
      wholeDigits?_isSome_iff]
  next missing =>
    refine ⟨fun impossible => by contradiction, ?_⟩
    rintro ⟨gap, digit, rest, rfl, -⟩
    exact (missing (List.isPrefixOf_iff_prefix.mpr (List.prefix_append ..))).elim

/-- So is a literal. -/
theorem literal?_isSome_iff {options : Options}
    : (radix.literal? options text).isSome = true
      ↔ radix.Announced options.digitSeparators text := by
  rw [literal?, Option.isSome_map, significand?_isSome_iff]

/-- What is announced stays announced whatever follows. -/
theorem Announced.append (announced : radix.Announced separators text) (more : List Char)
    : radix.Announced separators (text ++ more) := by
  obtain ⟨gap, digit, rest, rfl, isDigit, allowed⟩ := announced
  exact ⟨gap, digit, rest ++ more, by simp, isDigit, allowed⟩

/-- The leads differ, so only one of them stands at the beginning of a text. -/
theorem not_announced_both (separators : Bool) (text : List Char)
    : ¬ (binary.Announced separators text ∧ hexadecimal.Announced separators text) := by
  rintro ⟨⟨_, _, _, rfl, -⟩, ⟨_, _, _, other, -⟩⟩
  simp [lead] at other

/-- A letter of a lead goes on with nothing that the zero before it may begin. -/
theorem apart_of_lead (led : radix.lead ≠ []) (separators : Bool)
    : ∃ letter,
        radix.lead = ['0', letter]
        ∧ letter ≠ '.'
        ∧ decimal.continues separators letter = false
        ∧ ∀ marker : Marker, marker.hasLetter letter = false := by
  cases radix with
  | decimal => contradiction
  | binary => exact ⟨'b', rfl, by decide, by cases separators <;> decide, by rintro ⟨⟩ <;> decide⟩
  | hexadecimal =>
      exact ⟨'x', rfl, by decide, by cases separators <;> decide, by rintro ⟨⟩ <;> decide⟩

/-- A lead that announces nothing leaves its zero to be a decimal literal. -/
theorem decimal_literal?_of_lead (options : Options) (led : radix.lead ≠ [])
    (begins : radix.lead <+: text)
    : decimal.literal? options text = some ⟨1, Binary64.zero, none⟩ := by
  obtain ⟨rest, rfl⟩ := begins
  obtain ⟨letter, lead, noPoint, ends, unmarked⟩ := apart_of_lead led options.digitSeparators
  have zero : decimal.continues options.digitSeparators '0' = true := by
    cases options.digitSeparators <;> decide
  have isRun : IsRun (decimal.continues options.digitSeparators) ['0'] (letter :: rest) :=
    ⟨by simpa using zero, by simpa using ends⟩
  have spells : decimal.SpellsSignificand options.digitSeparators ['0'] (letter :: rest)
      ⟨1, ⟨[0], []⟩, none⟩ :=
    .mk isRun rfl (.absent (by simpa using noPoint))
  have found : decimal.significand? options.digitSeparators ('0' :: letter :: rest)
      = some ⟨1, ⟨[0], []⟩, none⟩ := spells.read
  have unscaled : Marker.suffix? (letter :: rest) = none := by
    simp [Marker.suffix?, Marker.exponent?, unmarked]
  have nothing : decimal.value ⟨[0], []⟩ = Binary64.zero := rfl
  simp [lead, literal?, found, Binary64.scaleBy, unscaled, nothing, Lexeme.extend]

end Radix

namespace Options

/-- A literal of the radix is announced and allowed. -/
def Announces (options : Options) (radix : Radix) (text : List Char) : Prop :=
  options.allows radix = true ∧ radix.Announced options.digitSeparators text

/-- The radix of the literal that the text begins with, if it begins with one. -/
def Selects (options : Options) (text : List Char) : Radix → Prop
  | .decimal => ¬ options.Announces .binary text ∧ ¬ options.Announces .hexadecimal text
  | radix => options.Announces radix text

/-- The literal of the radix, if it is allowed. -/
def attempt? (options : Options) (radix : Radix) (text : List Char)
    : Option (Lexeme (Radix × Binary64)) :=
  if options.allows radix then (radix.literal? options text).map (·.map (radix, ·)) else none

/-- The first literal that is found when the radices are tried in the given order. -/
def firstLiteral? (options : Options) (order : List Radix) (text : List Char)
    : Option (Lexeme (Radix × Binary64)) :=
  order.findSome? (options.attempt? · text)

variable {options : Options} {text : List Char} {radix : Radix}

theorem attempt?_isSome_iff
    : (options.attempt? radix text).isSome = true ↔ options.Announces radix text := by
  unfold attempt? Announces
  split
  next allowed => simp [allowed, Radix.literal?_isSome_iff]
  next refused => simp [refused]

theorem attempt?_eq_none (silent : ¬ options.Announces radix text)
    : options.attempt? radix text = none := by
  rwa [← Option.not_isSome_iff_eq_none, attempt?_isSome_iff]

/-- Whichever of the leads is tried first, the radix that is selected decides. -/
theorem firstLiteral?_of_selects (selects : options.Selects text radix) {order : List Radix}
    (leads : order = [.binary, .hexadecimal] ∨ order = [.hexadecimal, .binary])
    : options.firstLiteral? (order ++ [.decimal]) text = options.attempt? radix text := by
  cases radix with
  | decimal =>
      have noBinary := attempt?_eq_none selects.1
      have noHexadecimal := attempt?_eq_none selects.2
      rcases leads with rfl | rfl <;> simp [firstLiteral?, noBinary, noHexadecimal]
  | binary =>
      obtain ⟨literal, found⟩ := Option.isSome_iff_exists.mp (attempt?_isSome_iff.mpr selects)
      have noHexadecimal := attempt?_eq_none fun other : options.Announces .hexadecimal text =>
        Radix.not_announced_both _ _ ⟨selects.2, other.2⟩
      rcases leads with rfl | rfl <;> simp [firstLiteral?, found, noHexadecimal]
  | hexadecimal =>
      obtain ⟨literal, found⟩ := Option.isSome_iff_exists.mp (attempt?_isSome_iff.mpr selects)
      have noBinary := attempt?_eq_none fun other : options.Announces .binary text =>
        Radix.not_announced_both _ _ ⟨other.2, selects.2⟩
      rcases leads with rfl | rfl <;> simp [firstLiteral?, found, noBinary]

/-- The literal of a text is that of the radix that is selected. -/
theorem literal?_of_selects (selects : options.Selects text radix)
    : options.literal? text = (radix.literal? options text).map (·.map (radix, ·)) := by
  have allowed : options.allows radix = true := by
    cases radix with
    | decimal => rfl
    | binary | hexadecimal => exact selects.1
  have first := firstLiteral?_of_selects selects (.inl rfl)
  rw [attempt?, if_pos allowed] at first
  exact first

theorem exists_selects (options : Options) (text : List Char)
    : ∃ radix, options.Selects text radix := by
  by_cases binary : options.Announces .binary text
  · exact ⟨.binary, binary⟩
  by_cases hexadecimal : options.Announces .hexadecimal text
  · exact ⟨.hexadecimal, hexadecimal⟩
  · exact ⟨.decimal, binary, hexadecimal⟩

/-- The order of the leads does not matter. -/
theorem firstLiteral?_reverse (options : Options) (text : List Char)
    : options.firstLiteral? [.hexadecimal, .binary, .decimal] text = options.literal? text := by
  obtain ⟨radix, selects⟩ := options.exists_selects text
  exact (firstLiteral?_of_selects selects (.inr rfl)).trans
    (firstLiteral?_of_selects selects (.inl rfl)).symm

end Options

end Numeral
