import Numeral.Proofs.Literal.Delimiting

/-! What makes a literal malformed. It is the end of what was taken, and without it the literal
would be complete and have the value that the malformed one keeps.
-/

namespace Numeral

variable {α β : Type}

/-- The fault is the text `trouble`, with `rest` behind it: a separator in a fraction, or a marker
and a sign that no digit follows.
-/
inductive Fault.Shows : Fault → List Char → List Char → Prop
  | separator {fault rest}
    (inFraction : fault = .decimalNumberExpected ∨ fault = .hexadecimalNumberExpected)
    : Shows fault ['_'] rest
  | sign {marker letter sign rest} (marked : Marker.hasLetter marker letter = true)
    (signed : sign = '+' ∨ sign = '-') (noDigit : ∀ c ∈ rest.head?, c.isDigit = false)
    : Shows .exponentExpected [letter, sign] rest

/-- What a finder finds malformed ends with the trouble, and it finds the rest of it complete. -/
def ExplainsFaults (find? : List Char → Option (Lexeme α)) : Prop :=
  ∀ text lexeme fault,
    find? text = some lexeme
    → lexeme.fault = some fault
    → ∃ front trouble rest,
        text = front ++ (trouble ++ rest)
        ∧ lexeme.length = front.length + trouble.length
        ∧ fault.Shows trouble rest
        ∧ find? front = some ⟨front.length, lexeme.value, none⟩

/-- A change of the value changes it with the trouble and without. -/
theorem ExplainsFaults.map {find? : List Char → Option (Lexeme α)} (explains : ExplainsFaults find?)
    (f : α → β)
    : ExplainsFaults fun text => (find? text).map (·.map f) := by
  intro text lexeme fault found faulty
  obtain ⟨inner, inside, rfl⟩ := Option.map_eq_some_iff.mp found
  obtain ⟨front, trouble, rest, split, length, shows, complete⟩ :=
    explains text inner fault inside faulty
  refine ⟨front, trouble, rest, split, length, shows, ?_⟩
  simp only [complete, Option.map_some]
  rfl

/-- An exponent without digits scales nothing. -/
theorem Binary64.scaleBy_faulty {x : Binary64} {scaleByTen : ℤ → Binary64} {text : List Char}
    {fault : Fault} (faulty : (x.scaleBy scaleByTen text).fault = some fault)
    : ∃ trouble rest,
        text = trouble ++ rest
        ∧ (x.scaleBy scaleByTen text).length = trouble.length
        ∧ fault.Shows trouble rest
        ∧ (x.scaleBy scaleByTen text).value = x := by
  unfold scaleBy at faulty ⊢
  split at faulty
  next => contradiction
  next exponent found =>
    obtain ⟨marker, inner, present, rfl⟩ := Marker.suffix?_eq_some found
    rw [Lexeme.fault_map, Lexeme.fault_map] at faulty
    obtain ⟨body, rest, rfl, spells⟩ := Marker.exponent?_eq_some present
    refine ⟨body, rest, rfl, ?_, ?_, ?_⟩
    · exact spells.length_eq
    · cases spells with
      | digits _ _ _ => contradiction
      | @bare letter sign _ marked noDigit =>
          obtain rfl := Option.some.inj faulty
          have noDigit' : ∀ c ∈ rest.head?, c.isDigit = false := by
            intro c first
            rw [← Digit.isDigit_ten, noDigit c first]
          cases sign with
          | plus => exact .sign marked (.inl rfl) noDigit'
          | minus => exact .sign marked (.inr rfl) noDigit'
    · simp [faulty]

namespace Radix

variable {radix : Radix} {separators : Bool} {body rest : List Char}

/-- Without the separator behind it a fraction is sound. -/
theorem SpellsSignificand.without_separator {significand : Lexeme Significand} {fault : Fault}
    (spells : radix.SpellsSignificand separators body rest significand)
    (faulty : significand.fault = some fault)
    : ∃ front,
        body = front ++ ['_']
        ∧ (fault = .decimalNumberExpected ∨ fault = .hexadecimalNumberExpected)
        ∧ radix.SpellsSignificand separators front []
            ⟨front.length, significand.value, none⟩ := by
  cases spells with
  | @mk run whole _ _ _ isRun found behind =>
      cases behind with
      | absent _ => contradiction
      | pointed _ _ => contradiction
      | @separated digits _ named refused inside =>
          obtain rfl : named = fault := Option.some.inj faulty
          refine ⟨radix.lead ++ (run ++ '.' :: digits), by simp, ?_, ?_⟩
          · cases radix with
            | binary => contradiction
            | hexadecimal => exact .inr (Option.some.inj refused).symm
            | decimal => exact .inl (Option.some.inj refused).symm
          · have ends : IsRun (radix.continues separators) run ('.' :: digits ++ []) :=
              ⟨isRun.inside, fun c first => isRun.ends c first⟩
            have fractionRun
                : IsRun (radix.continues (separators && radix.fractionFault?.isNone)) digits []
                := by
              rw [refused, Option.isNone_some, Bool.and_false]
              exact ⟨inside, by simp⟩
            have sound := SpellsSignificand.mk ends found (.pointed fractionRun (by simp))
            simpa [Lexeme.extend, Lexeme.map, Nat.add_assoc] using sound

theorem literal?_explainsFaults (radix : Radix) (options : Options)
    : ExplainsFaults (radix.literal? options) := by
  intro text literal fault found faulty
  obtain ⟨body, rest, significand, rfl, spells, rfl⟩ := literal?_spelled found
  cases inSignificand : significand.fault with
  | some named =>
      have whole : radix.literalFrom significand rest = significand.map radix.value := by
        simp [literalFrom, inSignificand]
      rw [whole, Lexeme.fault_map, inSignificand] at faulty
      obtain rfl := Option.some.inj faulty
      obtain ⟨front, rfl, inFraction, sound⟩ := spells.without_separator inSignificand
      refine ⟨front, ['_'], rest, by simp, ?_, .separator inFraction, ?_⟩
      · rw [whole, Lexeme.length_map, spells.length_eq, List.length_append]
      · have complete := sound.literal?
        rw [List.append_nil, radix.literalFrom_nil rfl] at complete
        rw [whole]
        exact complete
  | none =>
      have scaled : radix.literalFrom significand rest
          = ((radix.value significand.value).scaleBy (radix.valueTimesTen significand.value)
              rest).extend body.length := by
        simp [literalFrom, inSignificand, spells.length_eq]
      rw [scaled, Lexeme.fault_extend] at faulty
      obtain ⟨trouble, after, rfl, length, shows, value⟩ := Binary64.scaleBy_faulty faulty
      refine ⟨body, trouble, after, rfl, ?_, shows, ?_⟩
      · rw [scaled, Lexeme.length_extend, length]
      · have complete := (spells.follow (.inl rfl)).literal?
        rw [List.append_nil, radix.literalFrom_nil inSignificand] at complete
        rw [complete, scaled, Lexeme.value_extend, value, Lexeme.map, spells.length_eq,
          inSignificand]

end Radix

namespace Options

theorem literal?_explainsFaults (options : Options)
    : ExplainsFaults options.literal? := by
  intro text literal fault found faulty
  obtain ⟨radix, selects⟩ := options.exists_selects text
  have own := (radix.literal?_explainsFaults options).map (radix, ·)
  rw [literal?_of_selects selects] at found
  obtain ⟨front, trouble, rest, rfl, length, shows, complete⟩ :=
    own text literal fault found faulty
  refine ⟨front, trouble, rest, rfl, length, shows, ?_⟩
  dsimp only at complete
  have present : (radix.literal? options front).isSome = true := by
    rw [← Option.isSome_map, complete, Option.isSome_some]
  rw [literal?_of_selects (selects.cut present), complete]

end Options

end Numeral
