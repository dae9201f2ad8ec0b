import Numeral.Proofs.Literal.Announcement

/-! Separators that are allowed write nothing. One more of them among digits makes the literal
longer by one character and changes nothing else of it, neither its radix nor its value nor what
is wrong with it.
-/

namespace Numeral

/-- Behind `front`, where a literal begins, a separator may be put in: between the lead and the end
of the whole part, but not before the first digit where there is no lead; and in a fraction that
may have separators, between the point and the end of the fraction.
-/
inductive Radix.TakesSeparator (radix : Radix) : List Char → Prop
  | whole {digits} (inside : ∀ c ∈ digits, radix.HasDigit c ∨ c = '_')
    (begun : radix.lead = [] → ∃ c ∈ digits.head?, radix.HasDigit c)
    : TakesSeparator radix (radix.lead ++ digits)
  | fraction {digits places} (allowed : radix.fractionFault? = none)
    (inside : ∀ c ∈ digits, radix.HasDigit c ∨ c = '_') (present : ∃ c ∈ digits, radix.HasDigit c)
    (placed : ∀ c ∈ places, radix.HasDigit c ∨ c = '_')
    : TakesSeparator radix (radix.lead ++ (digits ++ '.' :: places))

theorem Digit.values_append_underscore (base : Nat) (left right : List Char)
    : values base (left ++ '_' :: right) = values base (left ++ right) := by
  simp [values, value?_underscore]

theorem Lexeme.extend_extend {α : Type} (lexeme : Lexeme α) (first second : Nat)
    : (lexeme.extend first).extend second = lexeme.extend (second + first) := by
  simp only [extend, Nat.add_assoc]

namespace Radix

variable {radix : Radix} {front digits : List Char}

-----------------------------------------------------------------------------------------
-- Runs
-----------------------------------------------------------------------------------------

theorem continues_true_iff (radix : Radix) (c : Char)
    : radix.continues true c = true ↔ radix.HasDigit c ∨ c = '_' := by
  simp [continues, isDigit_base_iff]

theorem run_append_of_inside (inside : ∀ c ∈ digits, radix.HasDigit c ∨ c = '_')
    (rest : List Char)
    : radix.run true (digits ++ rest) = digits ++ radix.run true rest :=
  List.takeWhile_append_of_pos fun c member => (radix.continues_true_iff c).mpr (inside c member)

theorem run_append_underscore (inside : ∀ c ∈ digits, radix.HasDigit c ∨ c = '_')
    (rest : List Char)
    : radix.run true (digits ++ '_' :: rest) = digits ++ '_' :: radix.run true rest := by
  have separator : radix.continues true '_' = true := (radix.continues_true_iff '_').mpr (.inr rfl)
  rw [run_append_of_inside inside, run, List.takeWhile_cons, if_pos separator, run]

/-- What a run leaves does not depend on a separator in it. -/
theorem drop_run_append_underscore (inside : ∀ c ∈ digits, radix.HasDigit c ∨ c = '_')
    (rest : List Char)
    : (digits ++ '_' :: rest).drop (radix.run true (digits ++ '_' :: rest)).length
      = (digits ++ rest).drop (radix.run true (digits ++ rest)).length := by
  rw [run_append_underscore inside, run_append_of_inside inside]
  simp [List.drop_append]

theorem wholeDigits?_append_underscore
    (begun : radix.lead = [] → ∃ c ∈ digits.head?, radix.HasDigit c) (rest : List Char)
    : radix.wholeDigits? (digits ++ '_' :: rest) = radix.wholeDigits? (digits ++ rest) := by
  have begins : radix.lead = [] → (digits ++ '_' :: rest).head? = (digits ++ rest).head? := by
    intro noLead
    obtain ⟨c, first, -⟩ := begun noLead
    obtain ⟨others, rfl⟩ := List.head?_eq_some_iff.mp first
    rfl
  have refused : (radix.lead = [] ∧ (digits ++ '_' :: rest).head? = some '_')
      ↔ (radix.lead = [] ∧ (digits ++ rest).head? = some '_') :=
    and_congr_right fun noLead => by rw [begins noLead]
  simp only [wholeDigits?, Digit.values_append_underscore, refused]

-----------------------------------------------------------------------------------------
-- Significands
-----------------------------------------------------------------------------------------

theorem significand?_lead_append (radix : Radix) (separators : Bool) (body : List Char)
    : radix.significand? separators (radix.lead ++ body)
      = (radix.wholeDigits? (radix.run separators body)).map fun whole =>
          ((radix.fraction separators (body.drop (radix.run separators body).length)).map
            (Significand.mk whole)).extend
              (radix.lead.length + (radix.run separators body).length) := by
  unfold significand?
  rw [if_pos (List.isPrefixOf_iff_prefix.mpr (List.prefix_append ..)), List.drop_left]

theorem fraction_of_allowed (allowed : radix.fractionFault? = none) (rest : List Char)
    : radix.fraction true ('.' :: rest)
      = ⟨(radix.run true rest).length + 1, Digit.values radix.base (radix.run true rest),
          none⟩ := by
  simp only [fraction, allowed, Option.isNone_none, Bool.and_true]

/-- A separator in a fraction that may have one. -/
theorem fraction_append_underscore (allowed : radix.fractionFault? = none)
    (placed : ∀ c ∈ digits, radix.HasDigit c ∨ c = '_') (rest : List Char)
    : radix.fraction true ('.' :: (digits ++ '_' :: rest))
      = (radix.fraction true ('.' :: (digits ++ rest))).extend 1 := by
  rw [fraction_of_allowed allowed, fraction_of_allowed allowed, run_append_underscore placed,
    run_append_of_inside placed, Digit.values_append_underscore]
  simp only [Lexeme.extend, List.length_append, List.length_cons, Lexeme.mk.injEq, and_true]
  omega

theorem run_of_point (inside : ∀ c ∈ digits, radix.HasDigit c ∨ c = '_') (rest : List Char)
    : radix.run true (digits ++ '.' :: rest) = digits := by
  have stops : radix.continues true '.' = false := by cases radix <;> rfl
  rw [run_append_of_inside inside, run, List.takeWhile_cons, stops]
  simp

theorem TakesSeparator.significand? (takes : radix.TakesSeparator front) (rest : List Char)
    : radix.significand? true (front ++ '_' :: rest)
      = (radix.significand? true (front ++ rest)).map (·.extend 1) := by
  cases takes with
  | @whole digits inside begun =>
      rw [List.append_assoc, List.append_assoc, significand?_lead_append,
        significand?_lead_append, drop_run_append_underscore inside,
        run_append_underscore inside, wholeDigits?_append_underscore begun,
        run_append_of_inside inside, Option.map_map]
      congr 1
      funext whole
      simp only [Function.comp_apply, Lexeme.extend_extend]
      congr 1
      simp only [List.length_append, List.length_cons]
      omega
  | @fraction digits places allowed inside present placed =>
      simp only [List.append_assoc, List.cons_append, significand?_lead_append,
        run_of_point inside, List.drop_left, fraction_append_underscore allowed placed,
        Option.map_map]
      congr 1
      funext whole
      simp only [Function.comp_apply, Lexeme.extend, Lexeme.map]
      congr 1
      omega

/-- A significand takes all that certainly belongs to its whole part. -/
theorem le_length_of_significand? {separators : Bool} {run rest : List Char}
    (inside : ∀ c ∈ run, radix.continues separators c = true) {lexeme : Lexeme Significand}
    (found : radix.significand? separators (radix.lead ++ (run ++ rest)) = some lexeme)
    : (radix.lead ++ run).length ≤ lexeme.length := by
  have taken : radix.run separators (run ++ rest) = run ++ radix.run separators rest :=
    List.takeWhile_append_of_pos inside
  rw [significand?_lead_append, taken] at found
  obtain ⟨whole, -, rfl⟩ := Option.map_eq_some_iff.mp found
  simp only [Lexeme.length_extend, List.length_append]
  omega

/-- It takes the digits of its fraction as well, and separators among them if they are allowed. -/
theorem le_length_of_significand?_point {run places rest : List Char}
    (isRun : radix.run true (run ++ '.' :: (places ++ rest)) = run)
    (allowed : radix.fractionFault? = none) (inside : ∀ c ∈ places, radix.continues true c = true)
    {lexeme : Lexeme Significand}
    (found : radix.significand? true (radix.lead ++ (run ++ '.' :: (places ++ rest))) = some lexeme)
    : (radix.lead ++ (run ++ '.' :: places)).length ≤ lexeme.length := by
  have taken : radix.run true (places ++ rest) = places ++ radix.run true rest :=
    List.takeWhile_append_of_pos inside
  rw [significand?_lead_append, isRun, List.drop_left, fraction_of_allowed allowed, taken] at found
  obtain ⟨whole, -, rfl⟩ := Option.map_eq_some_iff.mp found
  simp only [Lexeme.length_extend, Lexeme.length_map, List.length_append, List.length_cons]
  omega

/-- The significand reaches as far as the separator would be put in. -/
theorem TakesSeparator.length_le (takes : radix.TakesSeparator front) {rest : List Char}
    {lexeme : Lexeme Significand} (found : radix.significand? true (front ++ rest) = some lexeme)
    : front.length ≤ lexeme.length := by
  have continued {text : List Char} (inside : ∀ c ∈ text, radix.HasDigit c ∨ c = '_')
      : ∀ c ∈ text, radix.continues true c = true :=
    fun c member => (radix.continues_true_iff c).mpr (inside c member)
  cases takes with
  | @whole digits inside begun =>
      rw [List.append_assoc] at found
      exact le_length_of_significand? (continued inside) found
  | @fraction digits places allowed inside present placed =>
      simp only [List.append_assoc, List.cons_append] at found
      exact le_length_of_significand?_point (run_of_point inside _) allowed (continued placed) found

-----------------------------------------------------------------------------------------
-- Literals
-----------------------------------------------------------------------------------------

/-- A literal with one more separator is longer by one, and the same otherwise. -/
theorem TakesSeparator.literal? (takes : radix.TakesSeparator front) {options : Options}
    (separators : options.digitSeparators = true) (rest : List Char)
    : radix.literal? options (front ++ '_' :: rest)
      = (radix.literal? options (front ++ rest)).map (·.extend 1) := by
  simp only [Radix.literal?, separators, takes.significand? rest]
  cases found : radix.significand? true (front ++ rest) with
  | none => rfl
  | some significand =>
      obtain ⟨more, reaches⟩ := Nat.exists_eq_add_of_le (takes.length_le found)
      have behind : (front ++ '_' :: rest).drop (1 + significand.length)
          = (front ++ rest).drop significand.length := by
        rw [reaches, Nat.add_left_comm, List.drop_length_add_append, List.drop_length_add_append,
          Nat.add_comm, List.drop_succ_cons]
      simp only [Option.map_some, Lexeme.fault_extend, Lexeme.value_extend, Lexeme.length_extend,
        behind]
      split
      · rfl
      · rw [Lexeme.extend_extend]

/-- Behind the first digit no letter of a lead comes, so none is announced there. -/
theorem TakesSeparator.not_announced {other : Radix} (takes : decimal.TakesSeparator front)
    (led : other.lead ≠ []) (rest : List Char)
    : ¬ other.Announced true (front ++ '_' :: rest) := by
  rintro ⟨gap, digit, behind, same, -⟩
  obtain ⟨letter, lead, -, ends, -⟩ := other.apart_of_lead led true
  rw [lead] at same
  cases takes with
  | @whole digits inside begun =>
      obtain ⟨first, head, -⟩ := begun rfl
      obtain ⟨others, rfl⟩ := List.head?_eq_some_iff.mp head
      have second : ∃ c ∈ (others ++ '_' :: rest).head?, decimal.continues true c = true := by
        cases others with
        | nil => exact ⟨'_', rfl, rfl⟩
        | cons c more => exact ⟨c, rfl, (decimal.continues_true_iff c).mpr (inside c (by simp))⟩
      obtain ⟨c, next, continued⟩ := second
      have tail := congrArg List.tail same
      simp only [Radix.lead, List.nil_append, List.cons_append, List.tail_cons] at tail
      rw [tail] at next
      obtain rfl : letter = c := Option.some.inj next
      rw [continued] at ends
      contradiction
  | fraction allowed _ _ _ => contradiction

end Radix

namespace Options

variable {options : Options} {radix : Radix} {front rest : List Char}

/-- The radix stays the one that is selected. -/
theorem Selects.append_underscore (selects : options.Selects (front ++ rest) radix)
    (separators : options.digitSeparators = true) (takes : radix.TakesSeparator front)
    : options.Selects (front ++ '_' :: rest) radix := by
  have announced (found : radix.Announced options.digitSeparators (front ++ rest))
      : radix.Announced options.digitSeparators (front ++ '_' :: rest) := by
    rw [← Radix.literal?_isSome_iff] at found ⊢
    rwa [takes.literal? separators, Option.isSome_map]
  cases radix with
  | binary | hexadecimal => exact ⟨selects.1, announced selects.2⟩
  | decimal =>
      refine ⟨fun binary => ?_, fun hexadecimal => ?_⟩
      · have read := binary.2
        rw [separators] at read
        exact takes.not_announced (by decide) rest read
      · have read := hexadecimal.2
        rw [separators] at read
        exact takes.not_announced (by decide) rest read

theorem literal?_append_underscore (selects : options.Selects (front ++ rest) radix)
    (separators : options.digitSeparators = true) (takes : radix.TakesSeparator front)
    : options.literal? (front ++ '_' :: rest)
      = (options.literal? (front ++ rest)).map (·.extend 1) := by
  have same := selects.append_underscore separators takes
  rw [literal?_of_selects selects, literal?_of_selects same, takes.literal? separators,
    Option.map_map, Option.map_map]
  rfl

end Options

end Numeral
