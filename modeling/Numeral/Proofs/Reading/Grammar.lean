import Numeral.Proofs.Reading.Dispatch
import Numeral.Proofs.Reading.Runs

/-! The grammar of each radix, place by place: from which characters a literal is found at the
cursor, where it ends, and where it is malformed. The places are determined by the text, so a
literal is as long as the grammar lets it be.
-/

namespace Numeral

namespace Cursor

/-- A digit of the radix stands somewhere from `start` up to `stop`. -/
def HoldsDigit (cursor : Cursor) (radix : Radix) (start stop : Nat) : Prop :=
  ∃ c ∈ cursor.between start stop, radix.HasDigit c

/-- The value of the digits from behind the lead to `whole` and of those behind a point there. -/
def mantissa (cursor : Cursor) (radix : Radix) (whole stop : Nat) : Binary64 :=
  radix.value
    { whole := Digit.values radix.base (cursor.between (cursor.offset + radix.lead.length) whole)
      fraction := Digit.values radix.base (cursor.between (whole + 1) stop) }

/-- What comes of a literal whose digits end at `stop`: with an exponent it goes on to the end of
that, a marker with a sign alone is a fault, and otherwise it ends with its digits.
-/
inductive GoesOn (cursor : Cursor) (marks : Char → Prop) (mantissa : Binary64) (stop : Nat)
    : Outcome Binary64 → Prop
  | scaled {behind value} (exponent : cursor.ExponentRunsTo marks stop behind)
    : GoesOn cursor marks mantissa stop (.complete cursor.offset behind value)
  | bare (sign : cursor.BareSignAt marks stop)
    : GoesOn cursor marks mantissa stop
        (.malformed cursor.offset (stop + 2) mantissa .exponentExpected)
  | ends (noExponent : ∀ behind, ¬ cursor.ExponentRunsTo marks stop behind)
    (noSign : ¬ cursor.BareSignAt marks stop)
    : GoesOn cursor marks mantissa stop (.complete cursor.offset stop mantissa)

/-- The whole part of a literal of the radix would end at `whole` and its digits at `stop`, and
what is read at the cursor is what these places make of it.
-/
structure FollowsGrammar (cursor : Cursor) (options : Options) (radix : Radix) (whole stop : Nat)
    : Prop where
  wholeRuns
    : cursor.RunsTo (fun c => radix.HasDigit c ∨ (options.digitSeparators = true ∧ c = '_'))
        (cursor.offset + radix.lead.length) whole
  fractionRuns
    : cursor.FractionRunsTo
        (fun c =>
          radix.HasDigit c
          ∨ (options.digitSeparators = true ∧ radix.fractionFault? = none ∧ c = '_'))
        whole stop
  absent_iff
    : (cursor.readRadix options radix).outcome = .ok cursor.absent
      ↔ ¬ (radix.lead <+: cursor.unread
          ∧ cursor.HoldsDigit radix (cursor.offset + radix.lead.length) whole
          ∧ (radix.lead = [] → cursor.peek? ≠ some '_'))
  separated
    : (cursor.readRadix options radix).outcome ≠ .ok cursor.absent
      → ∀ fault,
          radix.fractionFault? = some fault
          → cursor.get? whole = some '.'
          → cursor.get? stop = some '_'
          → (cursor.readRadix options radix).outcome
            = .ok (.malformed cursor.offset (stop + 1) (cursor.mantissa radix whole stop) fault)
  goesOn
    : (cursor.readRadix options radix).outcome ≠ .ok cursor.absent
      → (radix.fractionFault? = none
          ∨ ¬ (cursor.get? whole = some '.' ∧ cursor.get? stop = some '_'))
      → ∃ outcome,
          (cursor.readRadix options radix).outcome = .ok outcome
          ∧ cursor.GoesOn (fun c => ∃ marker : Marker, marker.hasLetter c = true)
              (cursor.mantissa radix whole stop) stop outcome

variable {cursor : Cursor} {options : Options} {radix : Radix} {separators : Bool}
  {marks : Char → Prop} {start whole stop : Nat} {run body rest : List Char}

theorem between_of_drop (split : cursor.text.drop start = run ++ rest)
    : cursor.between start (start + run.length) = run := by
  rw [between, Nat.add_sub_cancel_left, split, List.take_left]

theorem between_eq_nil (reached : stop ≤ start)
    : cursor.between start stop = [] := by
  rw [between, Nat.sub_eq_zero_of_le reached, List.take_zero]

/-- Only a character at `stop` can be a marker there. -/
theorem GoesOn.congr {others : Char → Prop} {mantissa : Binary64} {outcome : Outcome Binary64}
    (goesOn : cursor.GoesOn marks mantissa stop outcome)
    (same : ∀ c ∈ cursor.get? stop, marks c ↔ others c)
    : cursor.GoesOn others mantissa stop outcome := by
  have letters : (∃ c ∈ cursor.get? stop, marks c) ↔ ∃ c ∈ cursor.get? stop, others c :=
    exists_congr fun c => and_congr_right (same c)
  cases goesOn with
  | scaled exponent => exact .scaled ⟨letters.mp exponent.1, exponent.2⟩
  | bare sign => exact .bare ⟨letters.mp sign.1, sign.2⟩
  | ends noExponent noSign =>
      exact .ends (fun behind exponent => noExponent behind ⟨letters.mpr exponent.1, exponent.2⟩)
        fun sign => noSign ⟨letters.mpr sign.1, sign.2⟩

-----------------------------------------------------------------------------------------
-- From what is spelled to its places
-----------------------------------------------------------------------------------------

/-- Scaling the number before `stop` by what stands there goes on as the places say. -/
theorem goesOn_scaleBy {length : Nat} (here : cursor.offset + length = stop)
    (split : cursor.text.drop stop = rest) (x : Binary64) (scaleByTen : Int → Binary64)
    : cursor.GoesOn (fun c => ∃ marker : Marker, marker.hasLetter c = true) x stop
        (.ofLexeme cursor.offset (some ((x.scaleBy scaleByTen rest).extend length))) := by
  subst split
  cases found : Marker.suffix? (cursor.text.drop stop) with
  | none =>
      obtain ⟨noExponent, noSign⟩ := not_exponent_of_suffix? (fun _ marked => marked) found
      rw [Binary64.scaleBy, found]
      simp only [Lexeme.extend, Outcome.ofLexeme, Nat.add_zero, here]
      exact .ends noExponent noSign
  | some suffix =>
      obtain ⟨marker, exponent, inner, rfl⟩ := Marker.suffix?_eq_some found
      obtain ⟨body, rest, spelled, spells⟩ := Marker.exponent?_eq_some inner
      have marked : ∀ c, marker.hasLetter c = true → ∃ marker : Marker, marker.hasLetter c = true :=
        fun c letter => ⟨marker, letter⟩
      have ends : cursor.offset + (length + exponent.length) = stop + body.length := by
        rw [spells.length_eq]
        omega
      rw [Binary64.scaleBy, found]
      cases faulty : exponent.fault with
      | none =>
          simp only [Lexeme.map, Lexeme.extend, Outcome.ofLexeme, faulty, ends]
          exact .scaled (exponentRunsTo_of_spells spelled spells faulty marked)
      | some fault =>
          obtain ⟨sign, rfl, two⟩ := bareSignAt_of_spells spelled spells faulty marked
          rw [two] at ends
          simp only [Lexeme.map, Lexeme.extend, Outcome.ofLexeme, faulty, ends]
          exact .bare sign

theorem continues_iff (radix : Radix) (separators : Bool) (c : Char)
    : radix.continues separators c = true
      ↔ radix.HasDigit c ∨ (separators = true ∧ c = '_') := by
  simp [Radix.continues, Radix.isDigit_base_iff]

/-- The digits of a fraction end where the places say, and a fault is the separator there. -/
theorem exists_fractionRunsTo {lexeme : Lexeme (List Nat)}
    (split : cursor.text.drop whole = body ++ rest)
    (spells : radix.SpellsFraction separators body rest lexeme)
    : ∃ stop,
        cursor.FractionRunsTo
          (fun c =>
            radix.HasDigit c ∨ (separators = true ∧ radix.fractionFault? = none ∧ c = '_'))
          whole stop
        ∧ lexeme.value = Digit.values radix.base (cursor.between (whole + 1) stop)
        ∧ (lexeme.fault = none
          → whole + body.length = stop
            ∧ (radix.fractionFault? = none
              ∨ ¬ (cursor.get? whole = some '.' ∧ cursor.get? stop = some '_')))
        ∧ ∀ fault,
            lexeme.fault = some fault
            → whole + body.length = stop + 1
              ∧ radix.fractionFault? = some fault
              ∧ cursor.get? whole = some '.'
              ∧ cursor.get? stop = some '_' := by
  have tests (c : Char)
      : radix.continues (separators && radix.fractionFault?.isNone) c = true
        ↔ radix.HasDigit c ∨ (separators = true ∧ radix.fractionFault? = none ∧ c = '_') := by
    rw [continues_iff, Bool.and_eq_true, Option.isNone_iff_eq_none, and_assoc]
  cases spells with
  | absent noPoint =>
      have pointless : cursor.get? whole ≠ some '.' := by
        have here := get?_of_drop split 0
        rw [← List.head?_eq_getElem?] at here
        exact here ▸ noPoint
      refine ⟨whole, .inr ⟨pointless, rfl⟩, ?_, fun _ => ⟨rfl, .inr fun ends => pointless ends.1⟩,
        fun fault impossible => by contradiction⟩
      rw [between_eq_nil (Nat.le_succ whole)]
      rfl
  | @pointed digits _ isRun sound =>
      have point : cursor.get? whole = some '.' := get?_of_drop split 0
      have behind : cursor.text.drop (whole + 1) = digits ++ rest := drop_succ_of_drop_cons split
      refine ⟨whole + 1 + digits.length, .inl ⟨point, .of_isRun tests behind isRun⟩, ?_, ?_,
        fun fault impossible => by contradiction⟩
      · rw [between_of_drop behind]
      · refine fun _ => ⟨by simp only [List.length_cons]; omega, ?_⟩
        refine (Option.eq_none_or_eq_some radix.fractionFault?).imp_right ?_
        rintro ⟨fault, refused⟩ ⟨-, separator⟩
        have next := get?_of_drop (drop_of_drop_append behind) 0
        rw [← List.head?_eq_getElem?] at next
        exact sound (Option.isSome_of_eq_some refused) (next ▸ separator)
  | @separated digits _ fault refused inside =>
      have point : cursor.get? whole = some '.' := get?_of_drop split 0
      have behind : cursor.text.drop (whole + 1) = digits ++ '_' :: rest := by
        have tail := drop_succ_of_drop_cons split
        simpa using tail
      have isRun
          : IsRun (radix.continues (separators && radix.fractionFault?.isNone)) digits
              ('_' :: rest) := by
        rw [refused, Option.isNone_some, Bool.and_false]
        exact ⟨inside, by simp [Radix.continues_underscore]⟩
      refine ⟨whole + 1 + digits.length, .inl ⟨point, .of_isRun tests behind isRun⟩, ?_,
        fun impossible => by contradiction, ?_⟩
      · rw [between_of_drop behind]
      · rintro named faulty
        obtain rfl := Option.some.inj faulty
        refine ⟨?_, refused, point, get?_of_drop (drop_of_drop_append behind) 0⟩
        simp only [List.length_cons, List.length_append, List.length_nil]
        omega

theorem outcome_readRadix (cursor : Cursor) (options : Options) (radix : Radix)
    : (cursor.readRadix options radix).outcome
      = .ok (.ofLexeme cursor.offset (radix.literal? options cursor.unread)) := rfl

/-- A literal is found if its lead stands there and its whole part has its digits. -/
theorem literal?_isSome_iff_wholeDigits?
    (split : cursor.text.drop (cursor.offset + radix.lead.length) = run ++ rest)
    (isRun : IsRun (radix.continues options.digitSeparators) run rest)
    : (radix.literal? options cursor.unread).isSome = true
      ↔ radix.lead <+: cursor.unread ∧ (radix.wholeDigits? run).isSome = true := by
  have behind : cursor.unread.drop radix.lead.length = run ++ rest := by
    rw [unread, List.drop_drop, split]
  simp only [Radix.literal?, Option.isSome_map, Radix.significand?, behind,
    Radix.run_append isRun]
  split
  next lead => simp [List.isPrefixOf_iff_prefix.mp lead]
  next missing => simp [mt List.isPrefixOf_iff_prefix.mpr missing]

/-- The digits of a whole part are there if the run holds one, and without a lead begins with it. -/
theorem wholeDigits?_isSome_iff_holdsDigit
    (split : cursor.text.drop (cursor.offset + radix.lead.length) = run ++ rest)
    : (radix.wholeDigits? run).isSome = true
      ↔ cursor.HoldsDigit radix (cursor.offset + radix.lead.length)
          (cursor.offset + radix.lead.length + run.length)
        ∧ (radix.lead = [] → cursor.peek? ≠ some '_') := by
  have holds : (∃ c ∈ run, radix.HasDigit c) ↔ ¬ Digit.values radix.base run = [] := by
    simp [Digit.values_eq_nil_iff, ← Radix.isDigit_base_iff]
  have begins (noLead : radix.lead = []) (nonempty : run ≠ []) : cursor.peek? = run.head? := by
    rw [noLead, List.length_nil, Nat.add_zero] at split
    rw [peek?_eq_head?_unread, unread, split, List.head?_append_of_ne_nil _ nonempty]
  rw [HoldsDigit, between_of_drop split, holds, Radix.wholeDigits?]
  split
  next refused =>
    refine ⟨fun impossible => by contradiction, ?_⟩
    rintro ⟨present, atOnce⟩
    rcases refused with none | ⟨noLead, separator⟩
    · exact (present none).elim
    · have nonempty : run ≠ [] := fun empty => by simp [empty] at separator
      exact (atOnce noLead (begins noLead nonempty ▸ separator)).elim
  next kept =>
    obtain ⟨present, atOnce⟩ := not_or.mp kept
    have nonempty : run ≠ [] := fun empty => present (by rw [empty]; rfl)
    exact ⟨fun _ => ⟨present, fun noLead => begins noLead nonempty ▸ fun separator =>
      atOnce ⟨noLead, separator⟩⟩, fun _ => rfl⟩

/-- What is found is what the digits of the whole part, the fraction and the rest make of it. -/
theorem literal?_of_split {point : Lexeme (List Nat)}
    (split : cursor.text.drop (cursor.offset + radix.lead.length) = run ++ (body ++ rest))
    (isRun : IsRun (radix.continues options.digitSeparators) run (body ++ rest))
    (spells : radix.SpellsFraction options.digitSeparators body rest point)
    (present : (radix.literal? options cursor.unread).isSome = true)
    : radix.literal? options cursor.unread
      = some (radix.literalFrom
          ((point.map (Significand.mk (Digit.values radix.base run))).extend
            (radix.lead.length + run.length)) rest) := by
  obtain ⟨⟨behind, lead⟩, found⟩ := (literal?_isSome_iff_wholeDigits? split isRun).mp present
  obtain ⟨whole, digits⟩ := Option.isSome_iff_exists.mp found
  obtain ⟨rfl, -⟩ := Radix.wholeDigits?_eq_some digits
  have unread : cursor.unread = (radix.lead ++ (run ++ body)) ++ rest := by
    rw [← lead, List.append_assoc, List.append_assoc, ← split, ← List.drop_drop,
      ← Cursor.unread, ← lead, List.drop_left]
  rw [unread]
  exact (Radix.SpellsSignificand.mk isRun digits spells).literal?

/-- A faulty fraction ends the literal, whatever stands behind it. -/
theorem readRadix_of_faulty {point : Lexeme (List Nat)} {fault : Fault}
    (split : cursor.text.drop (cursor.offset + radix.lead.length) = run ++ (body ++ rest))
    (isRun : IsRun (radix.continues options.digitSeparators) run (body ++ rest))
    (spells : radix.SpellsFraction options.digitSeparators body rest point)
    (present : (radix.literal? options cursor.unread).isSome = true)
    (faulty : point.fault = some fault)
    : (cursor.readRadix options radix).outcome
      = .ok (.malformed cursor.offset
          (cursor.offset + radix.lead.length + run.length + body.length)
          (radix.value ⟨Digit.values radix.base run, point.value⟩) fault) := by
  have taken := spells.length_eq
  rw [outcome_readRadix, literal?_of_split split isRun spells present]
  simp only [Radix.literalFrom, faulty, Option.isSome_some, if_true, Lexeme.map, Lexeme.extend,
    Outcome.ofLexeme]
  congr 2
  omega

/-- Behind a sound fraction the literal goes on with what stands there. -/
theorem readRadix_of_sound {point : Lexeme (List Nat)}
    (split : cursor.text.drop (cursor.offset + radix.lead.length) = run ++ (body ++ rest))
    (isRun : IsRun (radix.continues options.digitSeparators) run (body ++ rest))
    (spells : radix.SpellsFraction options.digitSeparators body rest point)
    (present : (radix.literal? options cursor.unread).isSome = true)
    (sound : point.fault = none)
    : ∃ outcome,
        (cursor.readRadix options radix).outcome = .ok outcome
        ∧ cursor.GoesOn (fun c => ∃ marker : Marker, marker.hasLetter c = true)
            (radix.value ⟨Digit.values radix.base run, point.value⟩)
            (cursor.offset + radix.lead.length + run.length + body.length) outcome := by
  have taken := spells.length_eq
  refine ⟨_, congrArg (Except.ok ∘ Outcome.ofLexeme cursor.offset)
    (literal?_of_split split isRun spells present), ?_⟩
  simp only [Radix.literalFrom, Lexeme.fault_extend, Lexeme.fault_map, sound,
    Option.isSome_none, Bool.false_eq_true, if_false, Lexeme.value_extend, Lexeme.value_map,
    Lexeme.length_extend, Lexeme.length_map]
  refine goesOn_scaleBy (by omega) ?_ _ _
  exact drop_of_drop_append (drop_of_drop_append split)

/-- Every place of every text follows the grammar of every radix. -/
theorem exists_followsGrammar (cursor : Cursor) (options : Options) (radix : Radix)
    : ∃ whole stop, cursor.FollowsGrammar options radix whole stop := by
  obtain ⟨run, tail, split, isRun⟩ := exists_isRun (radix.continues options.digitSeparators)
    (cursor.text.drop (cursor.offset + radix.lead.length))
  obtain ⟨body, rest, point, rfl, spells⟩ :=
    radix.exists_spellsFraction options.digitSeparators tail
  obtain ⟨stop, fractionRuns, places, sound, faulty⟩ :=
    exists_fractionRunsTo (drop_of_drop_append split) spells
  have found
      : (cursor.readRadix options radix).outcome = .ok cursor.absent
        ↔ ¬ (radix.literal? options cursor.unread).isSome = true := by
    rw [outcome_readRadix, Except.ok.injEq, absent, Outcome.ofLexeme_eq_absent_iff,
      Option.not_isSome_iff_eq_none]
  have value
      : radix.value ⟨Digit.values radix.base run, point.value⟩
        = cursor.mantissa radix (cursor.offset + radix.lead.length + run.length) stop := by
    rw [mantissa, between_of_drop split, places]
  refine ⟨cursor.offset + radix.lead.length + run.length, stop,
    .of_isRun (continues_iff radix options.digitSeparators) split isRun, fractionRuns, ?_, ?_, ?_⟩
  · rw [found, literal?_isSome_iff_wholeDigits? split isRun,
      wholeDigits?_isSome_iff_holdsDigit split]
  · intro present fault refused pointed separator
    obtain ⟨named, inFraction⟩ : ∃ named, point.fault = some named := by
      refine Option.ne_none_iff_exists'.mp fun none => ?_
      rcases (sound none).2 with allowed | unfaulty
      · simp [allowed] at refused
      · exact unfaulty ⟨pointed, separator⟩
    obtain ⟨ends, refused', -, -⟩ := faulty named inFraction
    obtain rfl := Option.some.inj (refused'.symm.trans refused)
    rw [readRadix_of_faulty split isRun spells (not_not.mp (mt found.mpr present)) inFraction,
      ends, value]
  · intro present unfaulty
    have inFraction : point.fault = none := by
      refine Option.eq_none_iff_forall_not_mem.mpr fun named faulted => ?_
      obtain ⟨-, refused, pointed, separator⟩ := faulty named faulted
      rcases unfaulty with allowed | unfaulty
      · simp [allowed] at refused
      · exact unfaulty ⟨pointed, separator⟩
    have read :=
      readRadix_of_sound split isRun spells (not_not.mp (mt found.mpr present)) inFraction
    rwa [(sound inFraction).1, value] at read

-----------------------------------------------------------------------------------------
-- The three radices
-----------------------------------------------------------------------------------------

theorem lead_prefix_iff {letter : Char}
    : ['0', letter] <+: cursor.unread
      ↔ cursor.get? cursor.offset = some '0' ∧ cursor.get? (cursor.offset + 1) = some letter := by
  have first : cursor.get? cursor.offset = cursor.unread[0]? := get?_of_drop rfl 0
  have second : cursor.get? (cursor.offset + 1) = cursor.unread[1]? := get?_of_drop rfl 1
  rw [first, second]
  match cursor.unread with
  | [] => simp
  | [c] => simp
  | c :: d :: rest => simp [eq_comm]

theorem exists_marker_iff (c : Char)
    : (∃ marker : Marker, marker.hasLetter c = true) ↔ c ∈ ['e', 'E', 'p', 'P'] := by
  constructor
  · rintro ⟨_ | _, marked⟩
    · have letter : c = 'e' ∨ c = 'E' := by simpa [Marker.hasLetter] using marked
      rcases letter with rfl | rfl <;> simp
    · have letter : c = 'p' ∨ c = 'P' := by simpa [Marker.hasLetter] using marked
      rcases letter with rfl | rfl <;> simp
  · intro letter
    by_cases decimal : c = 'e' ∨ c = 'E'
    · exact ⟨.decimal, by simpa [Marker.hasLetter] using decimal⟩
    · exact ⟨.binary, by simp_all [Marker.hasLetter]⟩

/-- Where the digits of a fraction end no digit stands, whether there is a point or not. -/
theorem FractionRunsTo.ends {passes others : Char → Prop}
    (fraction : cursor.FractionRunsTo passes whole stop)
    (runs : cursor.RunsTo others start whole) (within : ∀ c, passes c → others c)
    : ∀ c ∈ cursor.get? stop, ¬ passes c := by
  rcases fraction with ⟨-, behind⟩ | ⟨-, rfl⟩
  · exact behind.ends
  · exact fun c here passing => runs.ends c here (within c passing)

/-- Where separators have no place in the fraction one behind its digits is the end. -/
theorem FollowsGrammar.read_of_refused {fault : Fault}
    (follows : cursor.FollowsGrammar options radix whole stop)
    (refused : radix.fractionFault? = some fault)
    (letters : ∀ c ∈ cursor.get? stop, (∃ marker : Marker, marker.hasLetter c = true) ↔ marks c)
    (present : (cursor.readRadix options radix).outcome ≠ .ok cursor.absent)
    : ∃ outcome,
        (cursor.readRadix options radix).outcome = .ok outcome
        ∧ if cursor.get? whole = some '.' ∧ cursor.get? stop = some '_' then
            outcome
            = .malformed cursor.offset (stop + 1) (cursor.mantissa radix whole stop) fault
          else cursor.GoesOn marks (cursor.mantissa radix whole stop) stop outcome := by
  by_cases separated : cursor.get? whole = some '.' ∧ cursor.get? stop = some '_'
  · refine ⟨_, follows.separated present fault refused separated.1 separated.2, ?_⟩
    rw [if_pos separated]
  · obtain ⟨outcome, read, goesOn⟩ := follows.goesOn present (.inr separated)
    refine ⟨outcome, read, ?_⟩
    rw [if_neg separated]
    exact goesOn.congr letters

/-- Hexadecimal literals are `0x`, digits with separators among them if they are allowed, a point
with digits alone behind it, and an exponent to the base two. The letter `e` is a digit and never
stands where an exponent might begin.
-/
theorem hexadecimal_grammar (cursor : Cursor) (options : Options)
    : ∃ whole stop,
        cursor.RunsTo
          (fun c => Radix.hexadecimal.HasDigit c ∨ (options.digitSeparators = true ∧ c = '_'))
          (cursor.offset + 2) whole
        ∧ cursor.FractionRunsTo Radix.hexadecimal.HasDigit whole stop
        ∧ ((cursor.readRadix options .hexadecimal).outcome = .ok cursor.absent
          ↔ ¬ (cursor.get? cursor.offset = some '0' ∧ cursor.get? (cursor.offset + 1) = some 'x')
            ∨ ¬ cursor.HoldsDigit .hexadecimal (cursor.offset + 2) whole)
        ∧ ((cursor.readRadix options .hexadecimal).outcome ≠ .ok cursor.absent
          → ∃ outcome,
              (cursor.readRadix options .hexadecimal).outcome = .ok outcome
              ∧ if cursor.get? whole = some '.' ∧ cursor.get? stop = some '_' then
                  outcome
                  = .malformed cursor.offset (stop + 1) (cursor.mantissa .hexadecimal whole stop)
                      .hexadecimalNumberExpected
                else
                  cursor.GoesOn (· ∈ ['p', 'P']) (cursor.mantissa .hexadecimal whole stop) stop
                    outcome)
        ∧ ∀ c ∈ cursor.get? stop, c ∉ ['e', 'E'] := by
  obtain ⟨whole, stop, follows⟩ := cursor.exists_followsGrammar options .hexadecimal
  have fraction : cursor.FractionRunsTo Radix.hexadecimal.HasDigit whole stop := by
    simpa [Radix.fractionFault?] using follows.fractionRuns
  have noDigit := fraction.ends follows.wholeRuns fun c digit => .inl digit
  have noLetter : ∀ c ∈ cursor.get? stop, c ∉ ['e', 'E'] := by
    intro c here letter
    refine noDigit c here ?_
    rcases List.mem_pair.mp letter with rfl | rfl
    · exact .inr (.inl (by decide))
    · exact .inr (.inr (by decide))
  refine ⟨whole, stop, follows.wholeRuns, fraction, ?_,
    follows.read_of_refused rfl fun c here => ?_, noLetter⟩
  · rw [follows.absent_iff, ← lead_prefix_iff, ← not_and_or]
    simp [Radix.lead]
  · have := noLetter c here
    rw [exists_marker_iff]
    simp_all

/-- Binary literals are `0b`, digits with separators among them if they are allowed, a point with
such digits behind it, and an exponent to either base. They are malformed only in the exponent.
-/
theorem binary_grammar (cursor : Cursor) (options : Options)
    : ∃ whole stop,
        cursor.RunsTo
          (fun c => Radix.binary.HasDigit c ∨ (options.digitSeparators = true ∧ c = '_'))
          (cursor.offset + 2) whole
        ∧ cursor.FractionRunsTo
          (fun c => Radix.binary.HasDigit c ∨ (options.digitSeparators = true ∧ c = '_'))
          whole stop
        ∧ ((cursor.readRadix options .binary).outcome = .ok cursor.absent
          ↔ ¬ (cursor.get? cursor.offset = some '0' ∧ cursor.get? (cursor.offset + 1) = some 'b')
            ∨ ¬ cursor.HoldsDigit .binary (cursor.offset + 2) whole)
        ∧ ((cursor.readRadix options .binary).outcome ≠ .ok cursor.absent
          → ∃ outcome,
              (cursor.readRadix options .binary).outcome = .ok outcome
              ∧ cursor.GoesOn (· ∈ ['e', 'E', 'p', 'P']) (cursor.mantissa .binary whole stop) stop
                  outcome)
        ∧ ∀ start stop value fault,
            (cursor.readRadix options .binary).outcome = .ok (.malformed start stop value fault)
            → fault = .exponentExpected := by
  obtain ⟨whole, stop, follows⟩ := cursor.exists_followsGrammar options .binary
  have read (present : (cursor.readRadix options .binary).outcome ≠ .ok cursor.absent)
      : ∃ outcome,
          (cursor.readRadix options .binary).outcome = .ok outcome
          ∧ cursor.GoesOn (· ∈ ['e', 'E', 'p', 'P']) (cursor.mantissa .binary whole stop) stop
              outcome := by
    obtain ⟨outcome, read, goesOn⟩ := follows.goesOn present (.inl rfl)
    exact ⟨outcome, read, goesOn.congr fun c _ => exists_marker_iff c⟩
  refine ⟨whole, stop, follows.wholeRuns, ?_, ?_, read, ?_⟩
  · simpa [Radix.fractionFault?] using follows.fractionRuns
  · rw [follows.absent_iff, ← lead_prefix_iff, ← not_and_or]
    simp [Radix.lead]
  · intro start stop value fault found
    obtain ⟨outcome, same, goesOn⟩ := read (by rw [found]; simp [absent])
    obtain rfl := Except.ok.inj (found.symm.trans same)
    cases goesOn
    rfl

theorem mem_between {c : Char} (here : cursor.get? start = some c) (before : start < stop)
    : c ∈ cursor.between start stop := by
  rw [get?] at here
  refine List.mem_of_getElem? (i := 0) ?_
  rw [between, List.getElem?_take, if_pos (by omega), List.getElem?_drop, Nat.add_zero, here]

/-- The run of a whole part without a lead holds a digit, and one first, if a digit stands there. -/
theorem begins_iff
    (runs : cursor.RunsTo (fun c => c.isDigit = true ∨ (separators = true ∧ c = '_'))
      cursor.offset whole)
    : Radix.decimal.lead <+: cursor.unread
        ∧ cursor.HoldsDigit .decimal cursor.offset whole
        ∧ (Radix.decimal.lead = [] → cursor.peek? ≠ some '_')
      ↔ ∃ c ∈ cursor.get? cursor.offset, c.isDigit = true := by
  constructor
  · rintro ⟨-, ⟨c, member, -⟩, atOnce⟩
    have nonempty : cursor.offset < whole := by
      refine Nat.lt_of_not_le fun reached => ?_
      simp [between_eq_nil reached] at member
    obtain ⟨first, here, digit | ⟨-, rfl⟩⟩ := runs.inside cursor.offset (Nat.le_refl _) nonempty
    · exact ⟨first, here, digit⟩
    · exact (atOnce rfl here).elim
  · rintro ⟨c, here, digit⟩
    have nonempty : cursor.offset < whole := by
      refine Nat.lt_of_le_of_ne runs.order ?_
      rintro rfl
      exact runs.ends c here (.inl digit)
    refine ⟨List.nil_prefix, ⟨c, mem_between here nonempty, digit⟩, ?_⟩
    rintro - separator
    obtain rfl := Option.some.inj (here.symm.trans separator)
    contradiction

/-- All that stands in the digits of a decimal literal is ASCII characters. -/
theorem toNat_lt_of_runs {c : Char} {place : Nat}
    (runs : cursor.RunsTo (fun c => c.isDigit = true ∨ (separators = true ∧ c = '_')) start whole)
    (fraction : cursor.FractionRunsTo (·.isDigit = true) whole stop) (behind : start ≤ place)
    (before : place < stop) (here : cursor.get? place = some c)
    : c.toNat < 128 := by
  have only {d : Char} (same : cursor.get? place = some d) : d = c :=
    Option.some.inj (same.symm.trans here)
  have ascii {d : Char} (digit : d.isDigit = true) : d.toNat < 128 :=
    Nat.lt_of_le_of_lt (Char.isDigit_iff_toNat.mp digit).2 (by decide)
  rcases Nat.lt_or_ge place whole with inWhole | behindWhole
  · obtain ⟨d, same, passing⟩ := runs.inside place behind inWhole
    obtain rfl := only same
    rcases passing with digit | ⟨-, rfl⟩
    · exact ascii digit
    · decide
  · rcases fraction with ⟨point, digits⟩ | ⟨-, rfl⟩
    · rcases Nat.eq_or_lt_of_le behindWhole with rfl | inFraction
      · obtain rfl := only point
        decide
      · obtain ⟨d, same, digit⟩ := digits.inside place inFraction before
        obtain rfl := only same
        exact ascii digit
    · omega

/-- Decimal literals begin with a digit and go on with digits, separators among them if they are
allowed, a point with digits alone behind it, and an exponent to either base. All of their digits
are ASCII characters.
-/
theorem decimal_grammar (cursor : Cursor) (options : Options)
    : ∃ whole stop,
        cursor.RunsTo (fun c => c.isDigit = true ∨ (options.digitSeparators = true ∧ c = '_'))
          cursor.offset whole
        ∧ cursor.FractionRunsTo (·.isDigit = true) whole stop
        ∧ ((cursor.readRadix options .decimal).outcome = .ok cursor.absent
          ↔ ¬ ∃ c ∈ cursor.get? cursor.offset, c.isDigit = true)
        ∧ ((cursor.readRadix options .decimal).outcome ≠ .ok cursor.absent
          → ∃ outcome,
              (cursor.readRadix options .decimal).outcome = .ok outcome
              ∧ if cursor.get? whole = some '.' ∧ cursor.get? stop = some '_' then
                  outcome
                  = .malformed cursor.offset (stop + 1) (cursor.mantissa .decimal whole stop)
                      .decimalNumberExpected
                else
                  cursor.GoesOn (· ∈ ['e', 'E', 'p', 'P']) (cursor.mantissa .decimal whole stop)
                    stop outcome)
        ∧ ∀ place c,
            cursor.offset ≤ place → place < stop → cursor.get? place = some c → c.toNat < 128 := by
  obtain ⟨whole, stop, follows⟩ := cursor.exists_followsGrammar options .decimal
  have wholeRuns : cursor.RunsTo
      (fun c => c.isDigit = true ∨ (options.digitSeparators = true ∧ c = '_'))
      cursor.offset whole := follows.wholeRuns
  have fraction : cursor.FractionRunsTo (·.isDigit = true) whole stop := by
    simpa [Radix.fractionFault?, Radix.HasDigit] using follows.fractionRuns
  refine ⟨whole, stop, wholeRuns, fraction, ?_,
    follows.read_of_refused rfl fun c _ => exists_marker_iff c,
    fun place c => toNat_lt_of_runs wholeRuns fraction⟩
  rw [follows.absent_iff, not_iff_not]
  exact begins_iff wholeRuns

end Cursor

end Numeral
