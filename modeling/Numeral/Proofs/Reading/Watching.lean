import Numeral.Proofs.Reading.Dispatch
import Numeral.Proofs.Reading.Faults

/-! What watching a reading adds to it. Its one event tells what came of the search for a literal,
behind the sign if there is one, and a defect that stops the reading is what the event would have
told. Otherwise it makes no difference whether the reading may be stopped.
-/

namespace Numeral

variable {α β : Type}

/-- The options, with malformed literals stopping the reading or not. -/
def Options.withHalt (options : Options) (halt : Bool) : Options :=
  { options with haltOnMalformed := halt }

/-- The event tells the outcome of a search: a literal by its span and radix and the place of
none as traces, and a malformed one by its span and fault for debugging.
-/
inductive Event.Tells (event : Event) : Outcome (Radix × α) → Prop
  | found {start stop radix value} (same : event = .found start stop radix)
    (level : event.level = .trace)
    : Tells event (.complete start stop (radix, value))
  | notFound {start} (same : event = .notFound start) (level : event.level = .trace)
    : Tells event (.absent start)
  | malformed {start stop value fault} (same : event = .malformed start stop fault)
    (level : event.level = .debug)
    : Tells event (.malformed start stop value fault)

/-- The inner outcome is of the same kind and ends where the outer one does, and begins `ahead`
code points behind its start.
-/
structure Outcome.IsWithin (inner : Outcome β) (outcome : Outcome α) (ahead : Nat) : Prop where
  start_eq : inner.start = outcome.start + ahead
  stop?_eq : inner.stop? = outcome.stop?
  fault?_eq : inner.fault? = outcome.fault?

/-- Watching shows what happens and changes nothing. The search for a literal begins `ahead` code
points behind the cursor. A reading that may not be stopped is told by one event. One that may be
stopped is if that event is about a malformed literal, and then the defect tells the same in its
place; if not, it is no other reading.
-/
structure Reading.Watched (read : Options → Cursor → Reading α) (ahead : Cursor → Nat) : Prop where
  told
    : ∀ (options : Options) cursor,
        ∃ outcome literal event,
          (read (options.withHalt false) cursor).outcome = .ok outcome
          ∧ (read (options.withHalt false) cursor).events = [event]
          ∧ ((cursor.advance (ahead cursor)).readLiteral (options.withHalt false)).outcome
            = .ok literal
          ∧ event.Tells literal
          ∧ literal.IsWithin outcome (ahead cursor)
  halts_iff
    : ∀ (options : Options) cursor,
        (∃ defect, (read (options.withHalt true) cursor).outcome = .error defect)
        ↔ ∃ start stop value fault,
            (read (options.withHalt false) cursor).outcome
              = .ok (.malformed start stop value fault)
  halted
    : ∀ (options : Options) cursor start stop value fault,
        (read (options.withHalt false) cursor).outcome = .ok (.malformed start stop value fault)
        → ∃ defect,
            (read (options.withHalt true) cursor).outcome = .error defect
            ∧ defect.haltMessage
              = "malformed number literal: " ++ fault.code ++ " at "
                ++ toString (start + ahead cursor) ++ ".." ++ toString stop
            ∧ (read (options.withHalt true) cursor).events = []
            ∧ (read (options.withHalt true) cursor).cursor.offset = stop
            ∧ (read (options.withHalt true) cursor).cursor.text = cursor.text
  unhalted
    : ∀ (options : Options) cursor outcome,
        (read (options.withHalt false) cursor).outcome = .ok outcome
        → outcome.isMalformed = false
        → read (options.withHalt true) cursor = read (options.withHalt false) cursor

theorem Outcome.isMalformed_eq (outcome : Outcome α)
    : outcome.isMalformed = outcome.fault?.isSome := by
  cases outcome <;> rfl

theorem Defect.haltMessage_eq (defect : Defect)
    : defect.haltMessage
      = "malformed number literal: " ++ defect.fault.code ++ " at " ++ toString defect.start
        ++ ".." ++ toString defect.stop := by
  simp only [haltMessage, message, Event.message, String.append_assoc]
  rfl

theorem Event.tells_ofOutcome (outcome : Outcome (Radix × α))
    : (ofOutcome outcome).Tells outcome := by
  cases outcome with
  | complete start stop value => exact .found rfl rfl
  | absent start => exact .notFound rfl rfl
  | malformed start stop value fault => exact .malformed rfl rfl

/-- What stands before a lexeme makes it longer and changes its outcome only at the start. -/
theorem Outcome.isWithin_ofLexeme (start ahead : Nat) (literal? : Option (Lexeme β)) (f : β → α)
    : (ofLexeme (start + ahead) literal?).IsWithin
        (ofLexeme start (literal?.map fun literal => (literal.map f).extend ahead)) ahead := by
  rcases literal? with _ | ⟨length, value, _ | fault⟩
  · exact ⟨rfl, rfl, rfl⟩
  all_goals exact ⟨rfl, congrArg some (Nat.add_assoc ..), rfl⟩

namespace Cursor

-----------------------------------------------------------------------------------------
-- The search for a literal, ahead of the cursor
-----------------------------------------------------------------------------------------

theorem watch_map (cursor : Cursor) (options : Options) (inner : Outcome (Radix × Binary64))
    (lexeme? : Option (Lexeme α)) (f : α → β)
    : (cursor.watch options inner lexeme?).map f
      = cursor.watch options inner (lexeme?.map (·.map f)) := by
  have behind : cursor.behind (lexeme?.map (·.map f)) = cursor.behind lexeme? := by
    cases lexeme? <;> rfl
  unfold watch
  rw [behind, Outcome.ofLexeme_map]
  split <;> rfl

/-- Reads the literal `ahead` code points behind the cursor, watched, with what stands before it.
-/
def watchAhead (cursor : Cursor) (options : Options) (ahead : Nat) (f : Radix × Binary64 → α)
    : Reading α :=
  let literal? := options.literal? (cursor.unread.drop ahead)
  cursor.watch options (.ofLexeme (cursor.offset + ahead) literal?)
    (literal?.map fun literal => (literal.map f).extend ahead)

/-- How many code points a sign at the cursor takes. -/
def signLength (cursor : Cursor) : Nat :=
  if cursor.peek? = some '+' ∨ cursor.peek? = some '-' then 1 else 0

theorem length_leading?_unread (cursor : Cursor)
    : Sign.length (Sign.leading? cursor.unread) = cursor.signLength := by
  rw [signLength, peek?_eq_head?_unread]
  cases cursor.unread with
  | nil => rfl
  | cons c rest =>
      by_cases plus : c = '+'
      · subst plus
        rfl
      by_cases minus : c = '-'
      · subst minus
        rfl
      have none : Sign.leading? (c :: rest) = none := by
        rw [Sign.leading?, List.head?_cons, Option.bind_some]
        unfold Sign.ofChar?
        split <;> first | contradiction | rfl
      simp [none, plus, minus, Sign.length]

theorem signLength_le (cursor : Cursor)
    : cursor.signLength ≤ cursor.unread.length := by
  rw [← length_leading?_unread]
  exact Sign.length_leading?_le cursor.unread

theorem readLiteral_eq_watchAhead (cursor : Cursor) (options : Options)
    : cursor.readLiteral options = cursor.watchAhead options 0 id := by
  have same : (fun literal : Lexeme (Radix × Binary64) => (literal.map id).extend 0) = id := by
    funext literal
    exact congrArg (Lexeme.mk · literal.value literal.fault) (Nat.zero_add _)
  rw [readLiteral, watchAhead, same, Option.map_id, List.drop_zero, Nat.add_zero]
  rfl

theorem readNumber_eq_watchAhead (cursor : Cursor) (options : Options)
    : cursor.readNumber options = cursor.watchAhead options 0 Prod.snd := by
  rw [readNumber, readLiteral_eq_watchAhead, watchAhead, watch_map, Option.map_map]
  rfl

theorem readSignedNumber_eq_watchAhead (cursor : Cursor) (options : Options)
    : cursor.readSignedNumber options
      = cursor.watchAhead options cursor.signLength
          (Sign.apply Binary64.neg (Sign.leading? cursor.unread) ∘ Prod.snd) := by
  rw [readSignedNumber, watchAhead, ← length_leading?_unread, Options.signedNumber?,
    Options.number?, Option.map_map]
  rfl

variable (cursor : Cursor) (options : Options) {ahead : Nat}

theorem unread_advance {count : Nat} (inside : count ≤ cursor.unread.length)
    : (cursor.advance count).unread = cursor.unread.drop count := by
  rw [unread, cursor.advance_fits inside, unread, List.drop_drop]
  rfl

/-- A literal that is read ahead ends inside the text. -/
theorem le_length_unread (inside : ahead ≤ cursor.unread.length)
    {literal : Lexeme (Radix × Binary64)}
    (found : options.literal? (cursor.unread.drop ahead) = some literal)
    : ahead + literal.length ≤ cursor.unread.length := by
  have taken := (options.literal?_takesPart _ literal found).2
  rw [List.length_drop] at taken
  omega

-----------------------------------------------------------------------------------------
-- Stopped and not stopped
-----------------------------------------------------------------------------------------

theorem told_watchAhead (inside : ahead ≤ cursor.unread.length) (f : Radix × Binary64 → α)
    : ∃ outcome literal event,
        (cursor.watchAhead (options.withHalt false) ahead f).outcome = .ok outcome
        ∧ (cursor.watchAhead (options.withHalt false) ahead f).events = [event]
        ∧ ((cursor.advance ahead).readLiteral (options.withHalt false)).outcome = .ok literal
        ∧ event.Tells literal
        ∧ literal.IsWithin outcome ahead := by
  rw [watchAhead, watch_of_running _ rfl, outcome_readLiteral _ rfl, cursor.unread_advance inside,
    cursor.advance_fits inside]
  exact ⟨_, _, _, rfl, rfl, rfl, Event.tells_ofOutcome _, Outcome.isWithin_ofLexeme ..⟩

/-- Where a malformed literal is found, the reading that it stops leaves its defect and is behind
it.
-/
theorem halted_watchAhead (inside : ahead ≤ cursor.unread.length) {f : Radix × Binary64 → α}
    {start stop : Nat} {value : α} {fault : Fault}
    (found : (cursor.watchAhead (options.withHalt false) ahead f).outcome
      = .ok (.malformed start stop value fault))
    : ∃ defect,
        (cursor.watchAhead (options.withHalt true) ahead f).outcome = .error defect
        ∧ (cursor.watchAhead (options.withHalt true) ahead f).events = []
        ∧ (cursor.watchAhead (options.withHalt true) ahead f).cursor.offset = stop
        ∧ (cursor.watchAhead (options.withHalt true) ahead f).cursor.text = cursor.text
        ∧ defect.fault = fault
        ∧ defect.start = start + ahead
        ∧ defect.stop = stop := by
  rw [watchAhead, watch_of_running _ rfl] at found
  obtain ⟨length, present, rfl, rfl⟩ := Outcome.ofLexeme_eq_malformed (Except.ok.inj found)
  obtain ⟨⟨inner, number, fault⟩, literal, same⟩ := Option.map_eq_some_iff.mp present
  cases same
  have again : (options.withHalt true).literal? (cursor.unread.drop ahead)
      = some ⟨inner, number, some _⟩ := literal
  have behind := cursor.advance_fits (cursor.le_length_unread options inside literal)
  rw [watchAhead, again, Outcome.ofLexeme, cursor.watch_of_halted rfl]
  exact ⟨_, rfl, rfl, behind, rfl, rfl, rfl, Nat.add_assoc ..⟩

theorem unhalted_watchAhead {f : Radix × Binary64 → α} {outcome : Outcome α}
    (found : (cursor.watchAhead (options.withHalt false) ahead f).outcome = .ok outcome)
    (sound : outcome.isMalformed = false)
    : cursor.watchAhead (options.withHalt true) ahead f
      = cursor.watchAhead (options.withHalt false) ahead f := by
  rw [watchAhead, watch_of_running _ rfl] at found
  obtain rfl := Except.ok.inj found
  have literalSound
      : (Outcome.ofLexeme (cursor.offset + ahead)
          (options.literal? (cursor.unread.drop ahead))).isMalformed = false := by
    have within := Outcome.isWithin_ofLexeme cursor.offset ahead
      (options.literal? (cursor.unread.drop ahead)) f
    rw [Outcome.isMalformed_eq, within.fault?_eq, ← Outcome.isMalformed_eq]
    exact sound
  -- whether it may be stopped is no part of what is found
  have told (halt : Bool)
      : cursor.watchAhead (options.withHalt halt) ahead f
        = { outcome := .ok _, events := [_], cursor := _ } :=
    cursor.watch_of_unhalted (.inr literalSound) _
  exact (told true).trans (told false).symm

end Cursor

namespace Reading

/-- Reading a literal somewhere ahead, watched, and making a value of it. -/
theorem Watched.of_watchAhead {read : Options → Cursor → Reading α} {ahead : Cursor → Nat}
    {f : Cursor → Radix × Binary64 → α} (inside : ∀ cursor, ahead cursor ≤ cursor.unread.length)
    (reads
      : ∀ options cursor, read options cursor = cursor.watchAhead options (ahead cursor) (f cursor))
    : Watched read ahead := by
  have halted (options : Options) (cursor start stop value fault)
      (found : (read (options.withHalt false) cursor).outcome
        = .ok (.malformed start stop value fault)) :=
    cursor.halted_watchAhead options (inside cursor) (reads _ cursor ▸ found)
  have unhalted (options : Options) (cursor outcome)
      (found : (read (options.withHalt false) cursor).outcome = .ok outcome)
      (sound : outcome.isMalformed = false)
      : read (options.withHalt true) cursor = read (options.withHalt false) cursor := by
    rw [reads, reads]
    exact cursor.unhalted_watchAhead options (reads _ cursor ▸ found) sound
  refine ⟨?_, ?_, ?_, unhalted⟩
  · intro options cursor
    rw [reads]
    exact cursor.told_watchAhead options (inside cursor) (f cursor)
  · intro options cursor
    constructor
    · rintro ⟨defect, stopped⟩
      obtain ⟨outcome, -, -, found, -⟩ := cursor.told_watchAhead options (inside cursor) (f cursor)
      rw [← reads] at found
      cases outcome with
      | malformed start stop value fault => exact ⟨start, stop, value, fault, found⟩
      | complete | absent =>
          rw [unhalted options cursor _ found rfl, found] at stopped
          contradiction
    · rintro ⟨start, stop, value, fault, found⟩
      obtain ⟨defect, stopped, -⟩ := halted options cursor start stop value fault found
      exact ⟨defect, reads _ cursor ▸ stopped⟩
  · intro options cursor start stop value fault found
    obtain ⟨defect, stopped, silent, place, sameText, rfl, begins, rfl⟩ :=
      halted options cursor start stop value fault found
    rw [reads]
    refine ⟨defect, stopped, ?_, silent, place, sameText⟩
    rw [defect.haltMessage_eq, begins]

/-- The readings of a literal of whichever radix are watched, and those of one radix alone are never
stopped and tell nothing.
-/
theorem readings_watched
    : (Watched (fun options cursor => cursor.readNumber options) fun _ => 0)
      ∧ (Watched (fun options cursor => cursor.readLiteral options) fun _ => 0)
      ∧ Watched (fun options cursor => cursor.readSignedNumber options) Cursor.signLength
      ∧ ∀ (options : Options) (radix : Radix) (cursor : Cursor),
          (cursor.readRadix options radix).events = []
          ∧ ∃ outcome, (cursor.readRadix options radix).outcome = .ok outcome := by
  refine ⟨?_, ?_, ?_, fun options radix cursor => ⟨rfl, _, rfl⟩⟩
  · exact .of_watchAhead (fun _ => Nat.zero_le _) fun options cursor =>
      cursor.readNumber_eq_watchAhead options
  · exact .of_watchAhead (fun _ => Nat.zero_le _) fun options cursor =>
      cursor.readLiteral_eq_watchAhead options
  · exact .of_watchAhead Cursor.signLength_le fun options cursor =>
      cursor.readSignedNumber_eq_watchAhead options

/-- A malformed literal behind a sign stops the reading with its own place. -/
theorem readings_watched_behind_sign
    : ∃ defect,
        ((Cursor.ofText "2-3e+".toList 1).readSignedNumber { haltOnMalformed := true }).outcome
          = .error defect
        ∧ defect.haltMessage = "malformed number literal: exponent-expected at 2..5" := by
  have malformed : ((Cursor.ofText "2-3e+".toList 1).readSignedNumber {}).outcome
      = .ok (.malformed 1 5 (Decimal.toBinary64 ⟨3, 0⟩ true) .exponentExpected) := by
    decide +kernel
  obtain ⟨defect, stopped, message, -⟩ :=
    readings_watched.2.2.1.halted {} (Cursor.ofText "2-3e+".toList 1) _ _ _ _ malformed
  exact ⟨defect, stopped, message⟩

end Reading

end Numeral
