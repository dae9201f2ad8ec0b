import Numeral.Proofs.Literal.Announcement
import Numeral.Proofs.Literal.Extent

/-! Separators that are not allowed. One of them ends a literal as the end of the text would,
with a single exception: where it stands right behind a fraction that no exponent follows, it
makes the literal malformed.
-/

namespace Numeral

/-- A character that stops a run is as good as the end of the text. -/
theorem takeWhile_append_cons {passes : Char → Bool} {c : Char} (stops : passes c = false)
    (text more : List Char)
    : (text ++ c :: more).takeWhile passes = text.takeWhile passes := by
  induction text with
  | nil => simp [stops]
  | cons first rest ih => simp [List.takeWhile_cons, ih]

/-- A beginning without a certain character does not reach behind that character. -/
theorem prefix_of_prefix_append_cons {start text more : List Char} {c : Char}
    (begins : start <+: text ++ c :: more) (apart : c ∉ start)
    : start <+: text := by
  induction start generalizing text with
  | nil => exact List.nil_prefix
  | cons first rest ih =>
      cases text with
      | nil =>
          obtain ⟨same, -⟩ := List.cons_prefix_cons.mp begins
          exact (apart (by simp [same])).elim
      | cons head tail =>
          obtain ⟨same, behind⟩ := List.cons_prefix_cons.mp begins
          exact List.cons_prefix_cons.mpr ⟨same, ih behind fun member => apart (by simp [member])⟩

-----------------------------------------------------------------------------------------
-- Exponents
-----------------------------------------------------------------------------------------

section Exponent

variable (text more : List Char)

theorem Sign.leading?_append_underscore
    : leading? (text ++ '_' :: more) = leading? text := by
  cases text <;> rfl

theorem Marker.signedDigits?_append_underscore
    : signedDigits? (text ++ '_' :: more) = signedDigits? text := by
  have stops : Digit.isDigit 10 '_' = false := by decide
  simp only [signedDigits?, Sign.leading?_append_underscore,
    List.drop_append_of_le_length (Sign.length_leading?_le text), takeWhile_append_cons stops]

theorem Marker.exponent?_append_underscore (marker : Marker)
    : marker.exponent? (text ++ '_' :: more) = marker.exponent? text := by
  cases text with
  | nil => cases marker <;> rfl
  | cons letter rest =>
      simp only [List.cons_append, exponent?, signedDigits?_append_underscore]

theorem Binary64.scaleBy_append_underscore (x : Binary64) (scaleByTen : ℤ → Binary64)
    : x.scaleBy scaleByTen (text ++ '_' :: more) = x.scaleBy scaleByTen text := by
  simp only [scaleBy, Marker.suffix?, Marker.exponent?_append_underscore]

end Exponent

namespace Radix

variable {radix : Radix} {options : Options} {separators : Bool} {text more body rest : List Char}

-----------------------------------------------------------------------------------------
-- Significands
-----------------------------------------------------------------------------------------

theorem IsRun.append_underscore {run : List Char} (isRun : IsRun (radix.continues false) run rest)
    (more : List Char)
    : IsRun (radix.continues false) run (rest ++ '_' :: more) where
  inside := isRun.inside
  ends := by
    intro c first
    cases rest with
    | nil =>
        obtain rfl : '_' = c := Option.some.inj first
        exact radix.continues_underscore
    | cons head tail => exact isRun.ends c first

/-- The text that a part of a literal takes has a point and ends with the whole text, and a digit
of the fraction would have to come next.
-/
def OpenFraction (radix : Radix) (body rest : List Char) : Prop :=
  radix.fractionFault?.isSome = true ∧ '.' ∈ body ∧ rest = []

theorem SpellsFraction.append_underscore {lexeme : Lexeme (List Nat)}
    (spells : radix.SpellsFraction false body rest lexeme)
    (closed : lexeme.fault = none → ¬ radix.OpenFraction body rest) (more : List Char)
    : radix.SpellsFraction false body (rest ++ '_' :: more) lexeme := by
  cases spells with
  | absent noPoint =>
      refine .absent fun point => ?_
      cases rest with
      | nil => simp at point
      | cons head tail => exact noPoint point
  | pointed isRun sound =>
      refine .pointed (IsRun.append_underscore isRun more) fun faulty separator => ?_
      cases rest with
      | nil => exact closed rfl ⟨faulty, by simp, rfl⟩
      | cons head tail => exact sound faulty separator
  | separated faulty inside => exact .separated faulty inside

theorem SpellsSignificand.append_underscore {lexeme : Lexeme Significand}
    (spells : radix.SpellsSignificand false body rest lexeme)
    (closed : lexeme.fault = none → ¬ radix.OpenFraction body rest) (more : List Char)
    : radix.SpellsSignificand false body (rest ++ '_' :: more) lexeme := by
  obtain ⟨isRun, digits, behind⟩ := spells
  have fractionClosed := behind.append_underscore
    (fun sound openFraction =>
      closed sound ⟨openFraction.1, by simp [openFraction.2.1], openFraction.2.2⟩)
    more
  have runEnds := IsRun.append_underscore isRun more
  rw [List.append_assoc] at runEnds
  exact .mk runEnds digits fractionClosed

/-- A point belongs neither to a lead nor to digits. -/
theorem not_point_of_continues (radix : Radix) {c : Char}
    (continued : radix.continues separators c = true)
    : c ≠ '.' := by
  rintro rfl
  cases radix <;> cases separators <;> contradiction

theorem not_mem_lead_point (radix : Radix)
    : '.' ∉ radix.lead := by
  cases radix <;> decide

/-- An open fraction takes the separator behind it, which is the fault. -/
theorem SpellsSignificand.take_underscore {lexeme : Lexeme Significand} {fault : Fault}
    (spells : radix.SpellsSignificand false body [] lexeme) (pointed : '.' ∈ body)
    (sound : lexeme.fault = none) (faulty : radix.fractionFault? = some fault) (more : List Char)
    : radix.SpellsSignificand false (body ++ ['_']) more
        ⟨lexeme.length + 1, lexeme.value, some fault⟩ := by
  cases spells with
  | @mk run whole _ _ _ isRun found behind =>
      cases behind with
      | absent _ =>
          simp only [List.append_nil, List.mem_append] at pointed
          rcases pointed with inLead | inRun
          · exact (radix.not_mem_lead_point inLead).elim
          · exact (radix.not_point_of_continues (isRun.inside _ inRun) rfl).elim
      | @pointed digits _ fractionRun _ =>
          have inside := fractionRun.inside
          rw [Bool.false_and] at inside
          have ends : IsRun (radix.continues false) run ('.' :: (digits ++ ['_']) ++ more) :=
            ⟨isRun.inside, fun c first => isRun.ends c first⟩
          have taken := SpellsSignificand.mk ends found (.separated faulty inside)
          simpa [Lexeme.extend, Lexeme.map, Nat.add_assoc] using taken
      | separated _ _ => contradiction

-----------------------------------------------------------------------------------------
-- Literals
-----------------------------------------------------------------------------------------

/-- The characters of a literal have a point and no exponent: what might be a marker is a digit
of the radix.
-/
structure HasBareFraction (radix : Radix) (span : List Char) : Prop where
  pointed : '.' ∈ span
  unscaled : ∀ c ∈ span, ∀ marker : Marker, marker.hasLetter c = true → radix.HasDigit c

/-- Behind a sound significand stands no digit that it could have taken. -/
theorem SpellsSignificand.ends {lexeme : Lexeme Significand}
    (spells : radix.SpellsSignificand separators body rest lexeme) (sound : lexeme.fault = none)
    : ∀ c ∈ rest.head?, ¬ radix.HasDigit c := by
  intro c first digit
  rw [← radix.isDigit_base_iff] at digit
  obtain ⟨isRun, -, behind⟩ := spells
  cases behind with
  | absent _ =>
      have stops := isRun.ends c first
      simp [continues, digit] at stops
  | pointed fractionRun _ =>
      have stops := fractionRun.ends c first
      simp [continues, digit] at stops
  | separated _ _ => contradiction

/-- No marker stands in a sound significand but as a digit. -/
theorem SpellsSignificand.unscaled {lexeme : Lexeme Significand}
    (spells : radix.SpellsSignificand false body rest lexeme) (sound : lexeme.fault = none)
    : ∀ c ∈ body, ∀ marker : Marker, marker.hasLetter c = true → radix.HasDigit c := by
  intro c member marker marked
  have inLead (led : c ∈ radix.lead) : radix.HasDigit c := by
    cases radix <;> simp only [lead, List.mem_cons, List.not_mem_nil, or_false] at led
    all_goals rcases led with rfl | rfl <;> cases marker <;> contradiction
  have inRun (continued : radix.continues false c = true) : radix.HasDigit c := by
    rw [continues, Bool.false_and, Bool.or_false] at continued
    exact (radix.isDigit_base_iff c).mp continued
  obtain ⟨isRun, -, behind⟩ := spells
  rw [List.mem_append, List.mem_append] at member
  rcases member with led | whole | fraction
  · exact inLead led
  · exact inRun (isRun.inside c whole)
  · cases behind with
    | absent _ => contradiction
    | pointed fractionRun _ =>
        rcases List.mem_cons.mp fraction with rfl | digit
        · cases marker <;> contradiction
        · have continued := fractionRun.inside c digit
          rw [Bool.false_and] at continued
          exact inRun continued
    | separated _ _ => contradiction

/-- A sound literal that takes all of a text without exponent is a sound significand. -/
theorem SpellsSignificand.sound_of_unscaled {significand : Lexeme Significand}
    (spells : radix.SpellsSignificand separators body rest significand)
    (sound : (radix.literalFrom significand rest).fault = none)
    (whole : (radix.literalFrom significand rest).length = (body ++ rest).length)
    (unscaled
      : ∀ c ∈ body ++ rest, ∀ marker : Marker, marker.hasLetter c = true → radix.HasDigit c)
    : significand.fault = none ∧ rest = [] := by
  cases faulty : significand.fault with
  | some fault => simp [literalFrom, faulty] at sound
  | none =>
      refine ⟨rfl, ?_⟩
      cases rest with
      | nil => rfl
      | cons letter behind =>
          have unmarked (marker : Marker) : marker.hasLetter letter = false := by
            refine Bool.eq_false_iff.mpr fun marked => ?_
            exact spells.ends faulty letter rfl (unscaled letter (by simp) marker marked)
          simp [literalFrom, faulty, Binary64.scaleBy, Marker.suffix?, Marker.exponent?, unmarked,
            spells.length_eq] at whole

/-- The literal is all of the text, and the next character could be a digit of its fraction. -/
structure Interruptible {α : Type} (radix : Radix) (text : List Char) (literal : Lexeme α)
    (fault : Fault)
    : Prop where
  faulty : radix.fractionFault? = some fault
  sound : literal.fault = none
  whole : literal.length = text.length
  bare : radix.HasBareFraction text

theorem literal?_interrupted (refused : options.digitSeparators = false)
    {literal : Lexeme Binary64} {fault : Fault} (found : radix.literal? options text = some literal)
    (interruptible : radix.Interruptible text literal fault) (more : List Char)
    : radix.literal? options (text ++ '_' :: more)
      = some ⟨literal.length + 1, literal.value, some fault⟩ := by
  obtain ⟨body, rest, significand, rfl, spells, rfl⟩ := literal?_spelled found
  rw [refused] at spells
  obtain ⟨faulty, unspoiled, whole, bare⟩ := interruptible
  obtain ⟨sound, rfl⟩ := spells.sound_of_unscaled unspoiled whole bare.unscaled
  have pointed := bare.pointed
  rw [List.append_nil] at pointed
  have taken := spells.take_underscore pointed sound faulty more
  rw [← refused] at taken
  have read := taken.literal?
  rw [List.append_assoc] at read
  rw [List.append_nil, radix.literalFrom_nil sound]
  exact read

theorem literal?_uninterrupted (refused : options.digitSeparators = false)
    {literal : Lexeme Binary64} (found : radix.literal? options text = some literal)
    (closed : ∀ fault, ¬ radix.Interruptible text literal fault) (more : List Char)
    : radix.literal? options (text ++ '_' :: more) = some literal := by
  obtain ⟨body, rest, significand, rfl, spells, rfl⟩ := literal?_spelled found
  rw [refused] at spells
  have fractionClosed : significand.fault = none → ¬ radix.OpenFraction body rest := by
    rintro sound ⟨isFaulty, pointed, rfl⟩
    obtain ⟨fault, faulty⟩ := Option.isSome_iff_exists.mp isFaulty
    refine closed fault ⟨faulty, ?_, ?_, ?_⟩
    · rw [radix.literalFrom_nil sound, Lexeme.fault_map, sound]
    · rw [radix.literalFrom_nil sound, Lexeme.length_map, spells.length_eq, List.append_nil]
    · rw [List.append_nil]
      exact ⟨pointed, spells.unscaled sound⟩
  have ended := spells.append_underscore fractionClosed more
  rw [← refused] at ended
  rw [List.append_assoc, ended.literal?]
  simp only [literalFrom, Binary64.scaleBy_append_underscore]

/-- A lead and a digit are announced by nothing behind a separator. -/
theorem announced_append_underscore
    : radix.Announced false (text ++ '_' :: more) ↔ radix.Announced false text := by
  refine ⟨?_, fun announced => announced.append _⟩
  rintro ⟨gap, digit, behind, same, isDigit, allowed⟩
  obtain rfl : gap = 0 := allowed.resolve_right fun separated => by simp at separated
  have begins : radix.lead ++ [digit] <+: text ++ '_' :: more := ⟨behind, by simp [same]⟩
  have apart : '_' ∉ radix.lead ++ [digit] := by
    rw [List.mem_append, List.mem_singleton]
    rintro (inLead | rfl)
    · cases radix <;> simp [lead] at inLead
    · exact radix.not_hasDigit_underscore isDigit
  obtain ⟨rest, rfl⟩ := prefix_of_prefix_append_cons begins apart
  exact ⟨0, digit, rest, by simp, isDigit, .inl rfl⟩

end Radix

namespace Options

variable {options : Options} {radix : Radix} {text : List Char}

theorem selects_append_underscore (refused : options.digitSeparators = false) (more : List Char)
    : options.Selects (text ++ '_' :: more) radix ↔ options.Selects text radix := by
  cases radix <;> simp only [Selects, Announces, refused, Radix.announced_append_underscore]

/-- The literal of a text with a separator behind it, where separators are not allowed, is the
literal of the text alone, unless that could have gone on with its fraction.
-/
theorem literal?_interrupted (refused : options.digitSeparators = false)
    {literal : Lexeme (Radix × Binary64)} {fault : Fault}
    (found : options.literal? text = some literal)
    (interruptible : literal.value.1.Interruptible text literal fault) (more : List Char)
    : options.literal? (text ++ '_' :: more)
      = some ⟨literal.length + 1, literal.value, some fault⟩ := by
  obtain ⟨radix, selects⟩ := options.exists_selects text
  rw [literal?_of_selects selects] at found
  obtain ⟨inner, own, rfl⟩ := Option.map_eq_some_iff.mp found
  obtain ⟨faulty, sound, whole, bare⟩ := interruptible
  have broken := Radix.literal?_interrupted refused own ⟨faulty, sound, whole, bare⟩ more
  rw [literal?_of_selects ((selects_append_underscore refused more).mpr selects), broken]
  rfl

theorem literal?_uninterrupted (refused : options.digitSeparators = false)
    (closed
      : ∀ literal fault,
          options.literal? text = some literal
          → ¬ literal.value.1.Interruptible text literal fault)
    (more : List Char)
    : options.literal? (text ++ '_' :: more) = options.literal? text := by
  obtain ⟨radix, selects⟩ := options.exists_selects text
  have same := (selects_append_underscore refused more).mpr selects
  rw [literal?_of_selects selects] at closed ⊢
  rw [literal?_of_selects same]
  cases own : radix.literal? options text with
  | none =>
      rw [← Option.not_isSome_iff_eq_none, Radix.literal?_isSome_iff, refused] at own
      have silent : radix.literal? options (text ++ '_' :: more) = none := by
        rwa [← Option.not_isSome_iff_eq_none, Radix.literal?_isSome_iff, refused,
          Radix.announced_append_underscore]
      rw [silent]
  | some literal =>
      have ownClosed : ∀ fault, ¬ radix.Interruptible text literal fault := by
        rintro fault ⟨faulty, sound, whole, bare⟩
        exact closed (literal.map (radix, ·)) fault (by rw [own]; rfl) ⟨faulty, sound, whole, bare⟩
      rw [Radix.literal?_uninterrupted refused own ownClosed more]

end Options

-----------------------------------------------------------------------------------------
-- Texts without separators
-----------------------------------------------------------------------------------------

section Clean

variable {text : List Char}

/-- Where no separator stands, it does not matter whether one might. -/
theorem Radix.run_of_not_mem (radix : Radix) (separators : Bool) (clean : '_' ∉ text)
    : radix.run separators text = radix.run false text := by
  induction text with
  | nil => rfl
  | cons c rest ih =>
      have notFirst : c ≠ '_' := fun same => clean (by simp [same])
      have notLater : '_' ∉ rest := fun member => clean (by simp [member])
      have same : radix.continues separators c = radix.continues false c := by
        simp [continues, notFirst]
      simp only [run, List.takeWhile_cons, same] at ih ⊢
      rw [ih notLater]

theorem Radix.fraction_of_not_mem (radix : Radix) (separators : Bool) (clean : '_' ∉ text)
    : radix.fraction separators text = radix.fraction false text := by
  unfold fraction
  split
  next rest =>
    have behind : '_' ∉ rest := fun member => clean (by simp [member])
    rw [radix.run_of_not_mem (separators && _) behind, radix.run_of_not_mem (false && _) behind]
  next => rfl

theorem Radix.significand?_of_not_mem (radix : Radix) (separators : Bool) (clean : '_' ∉ text)
    : radix.significand? separators text = radix.significand? false text := by
  have behind (count : Nat) : '_' ∉ text.drop count := fun member =>
    clean (List.mem_of_mem_drop member)
  have further (count more : Nat) : '_' ∉ (text.drop count).drop more := fun member =>
    behind count (List.mem_of_mem_drop member)
  simp only [significand?, radix.run_of_not_mem separators (behind _),
    radix.fraction_of_not_mem separators (further _ _)]

/-- Options that differ in their separators alone find the same there. -/
theorem Options.literal?_of_not_mem (options : Options) (separators : Bool) (clean : '_' ∉ text)
    : Options.literal? { options with digitSeparators := separators } text
      = Options.literal? { options with digitSeparators := false } text := by
  have each (radix : Radix)
      : radix.literal? { options with digitSeparators := separators } text
        = radix.literal? { options with digitSeparators := false } text := by
    simp only [Radix.literal?, radix.significand?_of_not_mem separators clean]
  have allowed (radix : Radix)
      : Options.allows { options with digitSeparators := separators } radix
        = Options.allows { options with digitSeparators := false } radix := by
    cases radix <;> rfl
  simp only [Options.literal?, each, allowed]

end Clean

end Numeral
