import Numeral.Fuzz.Check
import Numeral.Proofs.Literal.SingleRounding
import Numeral.Proofs.Reading.Placement

/-! The check passes on all bytes: the reader keeps what it promises at every place of every
text, and the value that is read is the value that the span writes, read as a whole.
-/

namespace Numeral.Fuzz

open Binary64 (Rounds)
open Decimal (Writes)

theorem require_of_true {condition : Bool} (holds : condition = true) (violation : Violation)
    : require condition violation = .ok () :=
  if_pos holds

theorem checkSpan_passes {cursor after : Cursor} {start stop : Nat}
    (here : start = cursor.offset) (progress : start < stop) (inside : stop ≤ cursor.length)
    (behind : after.offset = stop)
    : checkSpan cursor after start stop = .ok () := by
  rw [checkSpan, require_of_true (beq_iff_eq.mpr here),
    require_of_true (decide_eq_true ⟨progress, inside⟩),
    require_of_true (beq_iff_eq.mpr behind)]
  rfl

/-- Reading the span as a whole gives the number nearest to what it writes, and there is one
such number only.
-/
theorem checkValue_passes {written : List Char} {radix : Radix} {value : Binary64}
    (rounded : radix = .decimal → written.any (Marker.hasLetter .binary) = false →
      ∃ q, Writes written q ∧ Rounds q value)
    : checkValue written radix value = .ok () := by
  unfold checkValue
  split
  next asked =>
    obtain ⟨q, writes, rounds⟩ := rounded asked.1 (Bool.eq_false_iff.mpr asked.2)
    obtain ⟨x, read, rfl⟩ := writes.read
    apply require_of_true
    rw [read, Option.map_some, beq_iff_eq, x.rounds_toBinary64.unique rounds]
  next => rfl

/-- A literal that is complete and decimal has the value that its characters write. -/
theorem readLiteral_rounded {cursor : Cursor} {options : Options}
    (running : options.haltOnMalformed = false) (short : cursor.length < 2 ^ 31 - 400)
    {start stop : Nat} {radix : Radix} {value : Binary64}
    (complete : (cursor.readLiteral options).outcome = .ok (.complete start stop (radix, value)))
    (isDecimal : radix = .decimal)
    (unscaled : (writtenIn cursor start stop).any (Marker.hasLetter .binary) = false)
    : ∃ q, Writes (writtenIn cursor start stop) q ∧ Rounds q value := by
  rw [Cursor.readLiteral, cursor.watch_of_running running] at complete
  obtain ⟨_, found, rfl, rfl⟩ := Outcome.ofLexeme_eq_complete (Except.ok.inj complete)
  obtain ⟨_, ⟨length, _, _⟩, -, literal, same⟩ := Options.literal?_eq_some found
  cases same
  subst isDecimal
  have inside := (Radix.literal?_takesPart .decimal options _ _ literal).2
  rw [Cursor.length_unread] at inside
  have written : writtenIn cursor cursor.offset (cursor.offset + length)
      = (cursor.unread.take length).filter (· != '_') :=
    congrArg (List.filter _) (cursor.between_offset length)
  rw [written] at unscaled ⊢
  refine Radix.decimal_literal?_rounds literal rfl (Nat.lt_of_le_of_lt inside (by omega)) ?_
  intro c member
  by_cases separator : c = '_'
  · subst separator
    rfl
  · exact Bool.eq_false_iff.mpr (List.any_eq_false.mp unscaled c
      (List.mem_filter.mpr ⟨member, bne_iff_ne.mpr separator⟩))

theorem checkLiteral_passes {cursor : Cursor} {options : Options}
    (running : options.haltOnMalformed = false) (short : cursor.length < 2 ^ 31 - 400)
    : checkLiteral cursor (cursor.readLiteral options) = .ok () := by
  have fits := cursor.readLiteral_fitsAt running
  unfold Reading.FitsAt at fits
  unfold checkLiteral
  split
  next halted =>
    rw [halted] at fits
    exact fits.elim
  next absent =>
    rw [absent] at fits
    obtain ⟨rfl, same⟩ := fits
    rw [same, require_of_true BEq.rfl]
    exact require_of_true BEq.rfl _
  next complete =>
    have rounded := readLiteral_rounded running short complete
    rw [complete] at fits
    obtain ⟨here, progress, inside, behind, -⟩ := fits
    rw [checkSpan_passes here progress inside behind]
    exact checkValue_passes rounded
  next malformed =>
    rw [malformed] at fits
    obtain ⟨here, progress, inside, behind, -⟩ := fits
    exact checkSpan_passes here progress inside behind

theorem checkSignedNumber_passes {cursor : Cursor} {reading : Reading Binary64}
    (fits : reading.FitsAt cursor)
    : checkSignedNumber cursor reading = .ok () := by
  unfold Reading.FitsAt at fits
  unfold checkSignedNumber
  split
  next halted =>
    rw [halted] at fits
    exact fits.elim
  next outcome found =>
    rw [found] at fits
    cases outcome with
    | absent start =>
        obtain ⟨rfl, same⟩ := fits
        rw [same, require_of_true (by simp [Outcome.stop?])]
        exact require_of_true BEq.rfl _
    | complete start stop value | malformed start stop value fault =>
        obtain ⟨rfl, -, -, behind, -⟩ := fits
        rw [behind, require_of_true (by simp [Outcome.stop?])]
        exact require_of_true BEq.rfl _

/-- Bytes that are long enough for a header ask for something, with no option that lets a
reading be stopped and with a text no longer than they are.
-/
theorem Request.ofBytes?_of_header {bytes : List UInt8} (header : 5 ≤ bytes.length)
    : ∃ request,
        ofBytes? bytes = some request
        ∧ request.options.haltOnMalformed = false
        ∧ request.cursor.length ≤ bytes.length := by
  match bytes, header with
  | flags :: a :: b :: c :: d :: rest, _ =>
      refine ⟨_, rfl, rfl, ?_⟩
      have inside := Utf8.length_decode_le rest
      simp only [Cursor.ofText, Cursor.length, List.length_cons]
      omega

/-- The check finds nothing wrong, and both readings are told by one event each. -/
theorem check_passes {bytes : List UInt8} (short : bytes.length < 2 ^ 31 - 400)
    : ∃ events,
        check bytes = .ok events ∧ events.length = if bytes.length < 5 then 0 else 2 := by
  split
  next few =>
    refine ⟨[], ?_, rfl⟩
    match bytes, few with
    | [], _ | [_], _ | [_, _], _ | [_, _, _], _ | [_, _, _, _], _ => rfl
  next header =>
    obtain ⟨request, asked, running, inside⟩ :=
      Request.ofBytes?_of_header (Nat.le_of_not_lt header)
    have literal := checkLiteral_passes running (Nat.lt_of_le_of_lt inside short)
    have signed := checkSignedNumber_passes (request.cursor.readSignedNumber_fitsAt running)
    refine ⟨(request.cursor.readLiteral request.options).events
      ++ (request.cursor.readSignedNumber request.options).events, ?_, ?_⟩
    · simp only [check, asked, literal, signed]
      rfl
    · rw [Cursor.readLiteral, Cursor.readSignedNumber, Cursor.watch_of_running _ running,
        Cursor.watch_of_running _ running]
      rfl

/-- The text `2.` at the place after a byte that begins nothing. -/
theorem check_passes_trailing_point
    : ∃ events, check [0, 1, 0, 0, 0, 0xFF, 0x32, 0x2E] = .ok events ∧ events.length = 2 :=
  check_passes (by decide)

end Numeral.Fuzz
