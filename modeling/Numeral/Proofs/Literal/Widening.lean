import Numeral.Proofs.Literal.Beginning
import Numeral.Proofs.Literal.Interruption
import Numeral.Proofs.Literal.Transparency

/-! Options that accept more. They find a literal at the same places and never end it earlier: it is
the same literal, unless it was a sound one that ended at a separator or at the letter of a lead.
-/

namespace Numeral

variable {α β : Type}

/-- What the first options allow the second ones allow as well. -/
structure Options.Within (narrow wide : Options) : Prop where
  binary : narrow.binaryLiterals = true → wide.binaryLiterals = true
  hexadecimal : narrow.hexadecimalLiterals = true → wide.hexadecimalLiterals = true
  separators : narrow.digitSeparators = true → wide.digitSeparators = true

/-- The second lexeme is what may be found in place of the first one where more is accepted. -/
inductive Lexeme.WidensTo (lexeme : Lexeme α) : Lexeme α → Prop
  | same : WidensTo lexeme lexeme
  | further {wider} (sound : lexeme.fault = none) (reaches : lexeme.length ≤ wider.length)
    : WidensTo lexeme wider

namespace Lexeme

variable {lexeme wider : Lexeme α}

theorem WidensTo.map (widens : lexeme.WidensTo wider) (f : α → β)
    : (lexeme.map f).WidensTo (wider.map f) := by
  cases widens with
  | same => exact .same
  | further sound reaches => exact .further sound reaches

theorem WidensTo.extend (widens : lexeme.WidensTo wider) (count : Nat)
    : (lexeme.extend count).WidensTo (wider.extend count) := by
  cases widens with
  | same => exact .same
  | further sound reaches => exact .further sound (Nat.add_le_add_left reaches count)

theorem WidensTo.rel_map {f : Lexeme α → Lexeme β}
    (keeps : ∀ lexeme wider, WidensTo lexeme wider → WidensTo (f lexeme) (f wider))
    {narrow? wide? : Option (Lexeme α)} (related : Option.Rel WidensTo narrow? wide?)
    : Option.Rel WidensTo (narrow?.map f) (wide?.map f) := by
  cases related with
  | none => exact .none
  | some widens => exact .some (keeps _ _ widens)

end Lexeme

namespace Radix

variable {radix : Radix} {narrow wide : Bool} {text body rest run : List Char}

-----------------------------------------------------------------------------------------
-- Significands
-----------------------------------------------------------------------------------------

theorem continues_widen (within : narrow = true → wide = true) {c : Char}
    (continued : radix.continues narrow c = true)
    : radix.continues wide c = true := by
  cases narrow with
  | false =>
      have digit : Digit.isDigit radix.base c = true := by simpa [continues] using continued
      simp [continues, digit]
  | true => rwa [within rfl]

/-- A run ends where it did, unless it ended at a separator that may now stand in it. -/
theorem IsRun.widen (isRun : IsRun (radix.continues narrow) run rest)
    (within : narrow = true → wide = true)
    : IsRun (radix.continues wide) run rest ∨ (wide = true ∧ rest.head? = some '_') := by
  by_cases separator : wide = true ∧ rest.head? = some '_'
  · exact .inr separator
  refine .inl ⟨fun c member => continues_widen within (isRun.inside c member), fun c first => ?_⟩
  have digit : Digit.isDigit radix.base c = false := by
    have stops := isRun.ends c first
    rw [continues, Bool.or_eq_false_iff] at stops
    exact stops.1
  have notSeparator : ¬ (wide = true ∧ c = '_') := by
    rintro ⟨separated, rfl⟩
    exact separator ⟨separated, first⟩
  simpa [continues, digit] using notSeparator

/-- The same characters spell the same significand, unless it was a sound one that ended at a
separator and may now go on there.
-/
theorem SpellsSignificand.widen {lexeme : Lexeme Significand}
    (spells : radix.SpellsSignificand narrow body rest lexeme)
    (within : narrow = true → wide = true)
    : radix.SpellsSignificand wide body rest lexeme
      ∨ (lexeme.fault = none
          ∧ rest.head? = some '_'
          ∧ ∀ wider,
              radix.significand? wide (body ++ rest) = some wider
              → lexeme.length ≤ wider.length) := by
  have length := spells.length_eq
  obtain ⟨isRun, digits, behind⟩ := spells
  have inside := fun c member => continues_widen within (isRun.inside c member)
  rcases IsRun.widen isRun within with ends | ⟨separated, separator⟩
  · -- the whole part is the same, and only a fraction that may have separators can go on
    cases behind with
    | absent noPoint => exact .inl (.mk ends digits (.absent noPoint))
    | @pointed places rest fractionRun sound =>
        cases faulty : radix.fractionFault? with
        | some fault =>
            have same : (narrow && radix.fractionFault?.isNone)
                = (wide && radix.fractionFault?.isNone) := by
              simp [faulty]
            exact .inl (.mk ends digits (.pointed (same ▸ fractionRun) sound))
        | none =>
            have allowed : (wide && radix.fractionFault?.isNone) = wide := by simp [faulty]
            rw [faulty, Option.isNone_none, Bool.and_true] at fractionRun
            rcases IsRun.widen fractionRun within with fractionEnds | ⟨separated, separator⟩
            · exact .inl (.mk ends digits (.pointed (allowed.symm ▸ fractionEnds) sound))
            · refine .inr ⟨rfl, separator, fun wider found => ?_⟩
              rw [List.append_assoc, List.append_assoc] at found
              rw [length]
              subst separated
              exact le_length_of_significand?_point (run_append ends) faulty
                (fun c member => continues_widen within (fractionRun.inside c member)) found
    | separated faulty placed => exact .inl (.mk ends digits (.separated faulty placed))
  · cases behind with
    | absent noPoint =>
        refine .inr ⟨rfl, separator, fun wider found => ?_⟩
        rw [List.append_assoc, List.append_assoc] at found
        rw [length, List.append_nil]
        exact le_length_of_significand? inside found
    | pointed | separated => exact absurd separator (by simp)

-----------------------------------------------------------------------------------------
-- Literals
-----------------------------------------------------------------------------------------

/-- A sound significand with a separator behind it is the whole literal. -/
theorem literalFrom_of_underscore (radix : Radix) {significand : Lexeme Significand}
    (sound : significand.fault = none) (separator : rest.head? = some '_')
    : radix.literalFrom significand rest = significand.map radix.value := by
  obtain ⟨more, rfl⟩ := List.head?_eq_some_iff.mp separator
  rw [← radix.literalFrom_nil sound, ← List.nil_append ('_' :: more)]
  simp only [literalFrom, Binary64.scaleBy_append_underscore]

/-- An exponent makes a literal no shorter than its significand. -/
theorem length_le_literalFrom (radix : Radix) (significand : Lexeme Significand)
    (rest : List Char)
    : significand.length ≤ (radix.literalFrom significand rest).length := by
  unfold literalFrom
  split
  · exact Nat.le_refl _
  · exact Nat.le_add_right ..

variable {options more : Options}

/-- What is announced stays announced where more is accepted. -/
theorem Announced.widen (announced : radix.Announced narrow text)
    (within : narrow = true → wide = true)
    : radix.Announced wide text := by
  obtain ⟨gap, digit, behind, rfl, isDigit, allowed⟩ := announced
  exact ⟨gap, digit, behind, rfl, isDigit, allowed.imp_right fun separated =>
    ⟨within separated.1, separated.2⟩⟩

theorem literal?_widen (within : options.Within more) {literal : Lexeme Binary64}
    (found : radix.literal? options text = some literal)
    : ∃ wider, radix.literal? more text = some wider ∧ literal.WidensTo wider := by
  have announced := literal?_isSome_iff.mp (Option.isSome_of_eq_some found)
  obtain ⟨wider, present⟩ :=
    Option.isSome_iff_exists.mp (literal?_isSome_iff.mpr (announced.widen within.separators))
  refine ⟨wider, present, ?_⟩
  obtain ⟨body, rest, significand, rfl, spells, rfl⟩ := literal?_spelled found
  rcases spells.widen within.separators with same | ⟨sound, separator, reaches⟩
  · rw [same.literal?] at present
    obtain rfl := Option.some.inj present
    exact .same
  · obtain ⟨otherBody, otherRest, other, split, otherSpells, rfl⟩ := literal?_spelled present
    rw [literalFrom_of_underscore radix sound separator]
    refine .further sound (Nat.le_trans (reaches other ?_) (length_le_literalFrom ..))
    rw [split, otherSpells.read]

end Radix

namespace Options

variable {narrow wide : Options} {text : List Char} {radix : Radix}

theorem Within.allows (within : narrow.Within wide) (allowed : narrow.allows radix = true)
    : wide.allows radix = true := by
  cases radix with
  | binary => exact within.binary allowed
  | hexadecimal => exact within.hexadecimal allowed
  | decimal => rfl

/-- The same radix is selected, unless a lead was refused before. -/
theorem Selects.widen (selects : narrow.Selects text radix) (within : narrow.Within wide)
    : wide.Selects text radix
      ∨ (radix = .decimal ∧ ∃ led : Radix, led.lead ≠ [] ∧ led.lead <+: text) := by
  have leads {led : Radix} (announces : wide.Announces led text) : led.lead <+: text := by
    obtain ⟨gap, digit, rest, rfl, -⟩ := announces.2
    exact List.prefix_append ..
  cases radix with
  | binary | hexadecimal =>
      exact .inl ⟨within.allows selects.1, selects.2.widen within.separators⟩
  | decimal =>
      by_cases binary : wide.Announces .binary text
      · exact .inr ⟨rfl, .binary, by decide, leads binary⟩
      by_cases hexadecimal : wide.Announces .hexadecimal text
      · exact .inr ⟨rfl, .hexadecimal, by decide, leads hexadecimal⟩
      · exact .inl ⟨binary, hexadecimal⟩

/-- Where more is accepted there are literals at the same places, each the same or further. -/
theorem literal?_widen (within : narrow.Within wide) (text : List Char)
    : Option.Rel Lexeme.WidensTo (narrow.literal? text) (wide.literal? text) := by
  have begins : (narrow.literal? text).isSome = true ↔ (wide.literal? text).isSome = true := by
    rw [literal?_isSome_iff, literal?_isSome_iff]
  cases found : narrow.literal? text with
  | none =>
      rw [found] at begins
      rw [Option.not_isSome_iff_eq_none.mp fun present => nomatch begins.mpr present]
      exact .none
  | some literal =>
      obtain ⟨wider, present⟩ :=
        Option.isSome_iff_exists.mp (begins.mp (Option.isSome_of_eq_some found))
      rw [present]
      refine .some ?_
      obtain ⟨radix, selects⟩ := narrow.exists_selects text
      rw [literal?_of_selects selects] at found
      rcases selects.widen within with same | ⟨rfl, led, isLead, leading⟩
      · rw [literal?_of_selects same] at present
        obtain ⟨inner, own, rfl⟩ := Option.map_eq_some_iff.mp found
        obtain ⟨other, ownWider, widens⟩ := Radix.literal?_widen within own
        rw [ownWider] at present
        obtain rfl := Option.some.inj present
        exact widens.map _
      · -- the zero of the lead is all that was read
        rw [Radix.decimal_literal?_of_lead narrow isLead leading] at found
        obtain rfl := Option.some.inj found
        exact .further rfl (wide.literal?_takesPart text wider present).1

theorem number?_widen (within : narrow.Within wide) (text : List Char)
    : Option.Rel Lexeme.WidensTo (narrow.number? text) (wide.number? text) :=
  Lexeme.WidensTo.rel_map (fun _ _ widens => widens.map Prod.snd) (literal?_widen within text)

theorem signedNumber?_widen (within : narrow.Within wide) (text : List Char)
    : Option.Rel Lexeme.WidensTo (narrow.signedNumber? text) (wide.signedNumber? text) :=
  Lexeme.WidensTo.rel_map (fun _ _ widens => (widens.map _).extend _) (number?_widen within _)

end Options

end Numeral
