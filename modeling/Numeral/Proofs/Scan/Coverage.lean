import Numeral.Proofs.Reading.Dispatch
import Numeral.Scan

/-! A scan loses nothing and finds nothing twice. The loop is stated as a relation between
where it starts and what it leaves behind; what each step keeps gives what a whole run keeps.
-/

namespace Numeral.Scan

variable {α : Type}

-----------------------------------------------------------------------------------------
-- The loop and what it is to give
-----------------------------------------------------------------------------------------

/-- From a cursor the loop comes to an end, with what it found and where it is then. Every
step goes on from where the reading left the cursor, by one code point if it found nothing.
-/
inductive Runs (read : Cursor → Reading α)
    : Cursor → List (Except Defect (Outcome α)) → Cursor → Prop
  | done {cursor} (atEnd : cursor.isAtEnd = true)
    : Runs read cursor [] cursor
  | skip {cursor found last} (unread : cursor.isAtEnd = false)
    (absent : isAbsent (read cursor).outcome = true)
    (rest : Runs read ((read cursor).cursor.advance 1) found last)
    : Runs read cursor found last
  | record {cursor found last} (unread : cursor.isAtEnd = false)
    (present : isAbsent (read cursor).outcome = false)
    (rest : Runs read (read cursor).cursor found last)
    : Runs read cursor ((read cursor).outcome :: found) last

def span? : Except Defect (Outcome α) → Option (Nat × Nat)
  | .ok outcome => outcome.stop?.map (outcome.start, ·)
  | .error _ => none

/-- What was found from `cursor` on lies at `spans`. They are inside the text, not empty, in
order and apart from each other, and every ASCII digit lies in exactly one of them.
-/
structure Covers (cursor : Cursor) (found : List (Except Defect (Outcome α)))
    (spans : List (Nat × Nat))
    : Prop where
  recorded : found.map span? = spans.map some
  inside : ∀ span ∈ spans, cursor.offset ≤ span.1 ∧ span.1 < span.2 ∧ span.2 ≤ cursor.length
  apart : spans.Pairwise fun before after => before.1 < after.1 ∧ before.2 ≤ after.1
  digits
    : ∀ index c,
        cursor.offset ≤ index
        → cursor.get? index = some c
        → c.isDigit = true
        → spans.countP (fun span => span.1 ≤ index ∧ index < span.2) = 1

/-- The loop ends as `run` says and in no other way, at the end of the text, and what it
found covers the digits.
-/
structure Lossless (read : Cursor → Reading α) (cursor : Cursor) : Prop where
  ends
    : ∀ found last,
        Runs read cursor found last
        ↔ found = (run read cursor).found ∧ last = (run read cursor).cursor
  atEnd : (run read cursor).cursor.isAtEnd = true
  sameText : (run read cursor).cursor.text = cursor.text
  covers : ∃ spans, Covers cursor (run read cursor).found spans

/-- A reader that a scan can rely on: its readings fit, and at a digit it finds something. -/
structure Reliable (read : Cursor → Reading α) : Prop where
  fits : ∀ cursor, (read cursor).FitsAt cursor
  finds
    : ∀ cursor c,
        cursor.peek? = some c → c.isDigit = true → isAbsent (read cursor).outcome = false

-----------------------------------------------------------------------------------------
-- One step
-----------------------------------------------------------------------------------------

theorem Reliable.cursor_of_absent {read : Cursor → Reading α} (reliable : Reliable read)
    {cursor : Cursor} (absent : isAbsent (read cursor).outcome = true)
    : (read cursor).cursor = cursor := by
  have fits := reliable.fits cursor
  unfold Reading.FitsAt at fits
  split at fits
  · contradiction
  · exact fits.2
  all_goals
    rename_i found
    rw [found] at absent
    contradiction

theorem Reliable.span_of_present {read : Cursor → Reading α} (reliable : Reliable read)
    {cursor : Cursor} (present : isAbsent (read cursor).outcome = false)
    : span? (read cursor).outcome = some (cursor.offset, (read cursor).cursor.offset)
      ∧ cursor.offset < (read cursor).cursor.offset
      ∧ (read cursor).cursor.text = cursor.text := by
  have fits := reliable.fits cursor
  cases found : (read cursor).outcome with
  | error defect =>
      rw [Reading.FitsAt, found] at fits
      contradiction
  | ok outcome =>
      rw [found] at present
      obtain ⟨start, stop, progress, same⟩ := fits.span found present
      exact ⟨by rw [span?, start, stop, Option.map_some], progress, same⟩

/-- Nothing is found behind the end. -/
theorem Covers.done {cursor : Cursor} (atEnd : cursor.isAtEnd = true)
    : Covers (α := α) cursor [] [] := by
  refine ⟨rfl, by simp, .nil, ?_⟩
  intro index c behind found digit
  have outside : cursor.length ≤ index := cursor.isAtEnd_iff.mp atEnd ▸ behind
  rw [Cursor.get?, List.getElem?_eq_none outside] at found
  contradiction

/-- A code point that is no digit can be left out. -/
theorem Covers.skip {cursor : Cursor} {found : List (Except Defect (Outcome α))}
    {spans : List (Nat × Nat)} (rest : Covers (cursor.advance 1) found spans)
    (unread : cursor.isAtEnd = false)
    (ordinary : ∀ c, cursor.peek? = some c → c.isDigit = false)
    : Covers cursor found spans := by
  have next : (cursor.advance 1).offset = cursor.offset + 1 := by
    have room := cursor.isAtEnd_eq_false_iff.mp unread
    simp only [Cursor.advance, Cursor.offset_seek]
    omega
  refine ⟨rest.recorded, ?_, rest.apart, ?_⟩
  · intro span member
    have inside := rest.inside span member
    rw [next] at inside
    exact ⟨by omega, inside.2⟩
  · intro index c behind at_ digit
    rcases Nat.eq_or_lt_of_le behind with here | later
    · rw [ordinary c (by rw [Cursor.peek?, here, at_])] at digit
      contradiction
    · exact rest.digits index c (by omega) at_ digit

/-- What was found covers what it spans, and the rest covers what follows. -/
theorem Covers.record {cursor next : Cursor} {record : Except Defect (Outcome α)}
    {found : List (Except Defect (Outcome α))} {spans : List (Nat × Nat)}
    (rest : Covers next found spans)
    (span : span? record = some (cursor.offset, next.offset))
    (progress : cursor.offset < next.offset) (sameText : next.text = cursor.text)
    : Covers cursor (record :: found) ((cursor.offset, next.offset) :: spans) := by
  have sameLength : next.length = cursor.length := congrArg List.length sameText
  have stopInside := next.offset_le_length
  refine ⟨by simp [span, rest.recorded], ?_, ?_, ?_⟩
  · intro other member
    rcases List.mem_cons.mp member with rfl | later
    · exact ⟨Nat.le_refl _, progress, by omega⟩
    · have inside := rest.inside other later
      exact ⟨by omega, inside.2.1, by omega⟩
  · refine List.pairwise_cons.mpr ⟨?_, rest.apart⟩
    intro other later
    have inside := rest.inside other later
    exact ⟨by dsimp only; omega, inside.1⟩
  · intro index c behind at_ digit
    rcases Nat.lt_or_ge index next.offset with within | beyond
    · -- The digit lies in the first span, and every other one begins behind it.
      have others : spans.countP (fun span => span.1 ≤ index ∧ index < span.2) = 0 := by
        rw [List.countP_eq_zero]
        intro other later
        have inside := rest.inside other later
        simp only [decide_eq_true_eq]
        omega
      rw [List.countP_cons, others]
      simp [behind, within]
    · have once := rest.digits index c beyond (by rw [Cursor.get?, sameText]; exact at_) digit
      rw [List.countP_cons, once]
      simp [beyond]

-----------------------------------------------------------------------------------------
-- A whole run
-----------------------------------------------------------------------------------------

theorem Runs.atEnd {read : Cursor → Reading α} {cursor last : Cursor}
    {found : List (Except Defect (Outcome α))} (runs : Runs read cursor found last)
    : last.isAtEnd = true := by
  induction runs with
  | done atEnd => exact atEnd
  | skip _ _ _ ih | record _ _ _ ih => exact ih

theorem Runs.sameText {read : Cursor → Reading α} (reliable : Reliable read)
    {cursor last : Cursor} {found : List (Except Defect (Outcome α))}
    (runs : Runs read cursor found last)
    : last.text = cursor.text := by
  induction runs with
  | done _ => rfl
  | skip _ absent _ ih => rw [ih, reliable.cursor_of_absent absent]; rfl
  | record _ present _ ih => rw [ih, (reliable.span_of_present present).2.2]

/-- The loop has one way to go from each cursor, by comparing the two runs step by step. -/
theorem Runs.unique {read : Cursor → Reading α} {cursor last other : Cursor}
    {found others : List (Except Defect (Outcome α))} (runs : Runs read cursor found last)
    (also : Runs read cursor others other)
    : others = found ∧ other = last := by
  induction runs generalizing others with
  | done atEnd =>
      cases also with
      | done => exact ⟨rfl, rfl⟩
      | skip unread | record unread => simp [unread] at atEnd
  | skip unread absent _ ih =>
      cases also with
      | done atEnd => simp [unread] at atEnd
      | skip _ _ rest => exact ih rest
      | record _ present => simp [absent] at present
  | record unread present _ ih =>
      cases also with
      | done atEnd => simp [unread] at atEnd
      | skip _ absent => simp [present] at absent
      | record _ _ rest =>
          obtain ⟨rfl, rfl⟩ := ih rest
          exact ⟨rfl, rfl⟩

theorem Runs.covers {read : Cursor → Reading α} (reliable : Reliable read)
    {cursor last : Cursor} {found : List (Except Defect (Outcome α))}
    (runs : Runs read cursor found last)
    : ∃ spans, Covers cursor found spans := by
  induction runs with
  | done atEnd => exact ⟨[], .done atEnd⟩
  | @skip cursor found last unread absent _ ih =>
      obtain ⟨spans, rest⟩ := ih
      rw [reliable.cursor_of_absent absent] at rest
      refine ⟨spans, rest.skip unread fun c there => ?_⟩
      have missed := mt (reliable.finds cursor c there)
      simpa [absent] using missed
  | record _ present _ ih =>
      obtain ⟨spans, rest⟩ := ih
      obtain ⟨span, progress, sameText⟩ := reliable.span_of_present present
      exact ⟨_, rest.record span progress sameText⟩

/-- `run` ends as the loop does. Its own guard against a reader that stands still never
matters to one that gets on.
-/
theorem runs_run {read : Cursor → Reading α} (reliable : Reliable read) (cursor : Cursor)
    : Runs read cursor (run read cursor).found (run read cursor).cursor := by
  induction cursor using run.induct read with
  | case1 cursor unread reading absent ih =>
      rw [run, if_pos unread]
      simp only [reading] at absent
      simp only [absent, if_true]
      refine .skip (cursor.isAtEnd_eq_false_iff.mpr unread) absent ?_
      rw [reliable.cursor_of_absent absent]
      exact ih
  | case2 cursor unread reading present ih =>
      rw [run, if_pos unread]
      simp only [reading, Bool.not_eq_true] at present ih
      obtain ⟨-, progress, sameText⟩ := reliable.span_of_present present
      have stays : cursor.seek (max (cursor.offset + 1) (read cursor).cursor.offset)
          = (read cursor).cursor := by
        rw [Nat.max_eq_right progress, Cursor.seek_offset sameText]
      rw [stays] at ih
      simp only [present, stays]
      exact .record (cursor.isAtEnd_eq_false_iff.mpr unread) present ih
  | case3 cursor read_ =>
      rw [run, if_neg read_]
      have here := cursor.offset_le_length
      exact .done (cursor.isAtEnd_iff.mpr (by omega))

theorem Reliable.lossless {read : Cursor → Reading α} (reliable : Reliable read)
    (cursor : Cursor)
    : Lossless read cursor where
  ends _ _ :=
    ⟨(runs_run reliable cursor).unique, fun ⟨sameFound, sameLast⟩ =>
      sameFound ▸ sameLast ▸ runs_run reliable cursor⟩
  atEnd := (runs_run reliable cursor).atEnd
  sameText := (runs_run reliable cursor).sameText reliable
  covers := (runs_run reliable cursor).covers reliable

-----------------------------------------------------------------------------------------
-- The two ways to scan for numbers
-----------------------------------------------------------------------------------------

theorem isAbsent_ofLexeme (start : Nat) {lexeme? : Option (Lexeme α)}
    (found : lexeme?.isSome = true)
    : isAbsent (.ok (.ofLexeme start lexeme?)) = false := by
  obtain ⟨⟨length, value, fault⟩, rfl⟩ := Option.isSome_iff_exists.mp found
  cases fault <;> rfl

theorem readNumber_reliable {options : Options} (running : options.haltOnMalformed = false)
    : Reliable fun cursor => cursor.readNumber options where
  fits cursor := cursor.readNumber_fitsAt running
  finds cursor c there digit := by
    rw [Cursor.peek?_eq_head?_unread] at there
    have found := (options.number?_isSome_iff cursor.unread).mpr ⟨c, there, digit⟩
    rw [cursor.outcome_readNumber running]
    exact isAbsent_ofLexeme cursor.offset found

theorem readSignedNumber_reliable {options : Options}
    (running : options.haltOnMalformed = false)
    : Reliable fun cursor => cursor.readSignedNumber options where
  fits cursor := cursor.readSignedNumber_fitsAt running
  finds cursor c there digit := by
    rw [Cursor.peek?_eq_head?_unread] at there
    have found := options.signedNumber?_isSome_of_digit there digit
    rw [cursor.outcome_readSignedNumber running]
    exact isAbsent_ofLexeme cursor.offset found

/-- A scan for numbers, with signs or without, loses and duplicates nothing. -/
theorem scans_lossless (cursor : Cursor) (options : Options)
    (running : options.haltOnMalformed = false)
    : Lossless (fun cursor => cursor.readNumber options) cursor
      ∧ Lossless (fun cursor => cursor.readSignedNumber options) cursor :=
  ⟨(readNumber_reliable running).lossless cursor,
    (readSignedNumber_reliable running).lossless cursor⟩

theorem scans_lossless_malformed_exponent
    : Lossless (fun cursor => cursor.readSignedNumber {}) (.ofText "0x-3e+1_".toList 0) :=
  (scans_lossless (.ofText "0x-3e+1_".toList 0) {} rfl).2

end Numeral.Scan
