import Numeral.Proofs.Literal.Faults
import Numeral.Proofs.Reading.Delimiting
import Numeral.Proofs.Reading.Placement

/-! A malformed literal points at what is wrong. Its span ends behind the offending text, and the
value that it keeps is that of the literal before it, as it is read where the text ends there.
-/

namespace Numeral

variable {α β : Type}

/-- What is read malformed ends with the offending text, and is read as complete, with the same
value, where the text is cut before that: before a separator in a fraction, or before a marker and
a sign that no digit delivers.
-/
structure Reading.PointsAtFaults (read : Cursor → Reading α) : Prop where
  separator
    : ∀ cursor start stop value fault,
        (read cursor).outcome = .ok (.malformed start stop value fault)
        → fault = .decimalNumberExpected ∨ fault = .hexadecimalNumberExpected
        → ∃ place,
            stop = place + 1
            ∧ cursor.get? place = some '_'
            ∧ (read (cursor.upTo place)).outcome = .ok (.complete start place value)
  exponent
    : ∀ cursor start stop value,
        (read cursor).outcome = .ok (.malformed start stop value .exponentExpected)
        → ∃ place marker letter sign,
            stop = place + 2
            ∧ cursor.get? place = some letter
            ∧ Marker.hasLetter marker letter = true
            ∧ cursor.get? (place + 1) = some sign
            ∧ (sign = '+' ∨ sign = '-')
            ∧ (∀ c ∈ cursor.get? stop, c.isDigit = false)
            ∧ (read (cursor.upTo place)).outcome = .ok (.complete start place value)

theorem Outcome.ofLexeme_eq_malformed {offset start stop : Nat} {value : α} {fault : Fault}
    {lexeme? : Option (Lexeme α)}
    (same : ofLexeme offset lexeme? = .malformed start stop value fault)
    : ∃ length,
        lexeme? = some ⟨length, value, some fault⟩ ∧ start = offset ∧ stop = offset + length := by
  rcases lexeme? with _ | ⟨length, _, _ | _⟩ <;> cases same
  exact ⟨length, rfl, rfl, rfl⟩

namespace Cursor

theorem get?_add (cursor : Cursor) (index : Nat)
    : cursor.get? (cursor.offset + index) = cursor.unread[index]? := by
  simp [get?, unread]

end Cursor

namespace Reading

theorem PointsAtFaults.map {read : Cursor → Reading α} (points : PointsAtFaults read) (f : α → β)
    : PointsAtFaults fun cursor => (read cursor).map f := by
  have inner {cursor start stop value fault}
      (found : ((read cursor).map f).outcome = .ok (.malformed start stop value fault))
      : ∃ value',
          (read cursor).outcome = .ok (.malformed start stop value' fault) ∧ f value' = value := by
    simp only [Reading.map] at found
    cases outcome : (read cursor).outcome with
    | error defect =>
        rw [outcome] at found
        contradiction
    | ok result =>
        rw [outcome] at found
        cases result <;> cases found
        exact ⟨_, rfl, rfl⟩
  have outer {cursor start stop value}
      (found : (read cursor).outcome = .ok (.complete start stop value))
      : ((read cursor).map f).outcome = .ok (.complete start stop (f value)) := by
    simp only [Reading.map, found]
    rfl
  constructor
  · intro cursor start stop value fault found inFraction
    obtain ⟨value, malformed, rfl⟩ := inner found
    obtain ⟨place, ends, separator, complete⟩ :=
      points.separator cursor start stop value fault malformed inFraction
    exact ⟨place, ends, separator, outer complete⟩
  · intro cursor start stop value found
    obtain ⟨value, malformed, rfl⟩ := inner found
    obtain ⟨place, marker, letter, sign, ends, first, marked, second, signed, noDigit, complete⟩ :=
      points.exponent cursor start stop value malformed
    exact ⟨place, marker, letter, sign, ends, first, marked, second, signed, noDigit,
      outer complete⟩

/-- The reading gives what the finder finds, and never stops at what is complete. -/
structure Delivers (read : Cursor → Reading α) (find? : List Char → Option (Lexeme α)) : Prop where
  reads
    : ∀ cursor outcome,
        (read cursor).outcome = .ok outcome
        → outcome = .ofLexeme cursor.offset (find? cursor.unread)
  completes
    : ∀ cursor length value,
        find? cursor.unread = some ⟨length, value, none⟩
        → (read cursor).outcome = .ok (.complete cursor.offset (cursor.offset + length) value)

variable {read : Cursor → Reading α} {find? : List Char → Option (Lexeme α)}

/-- What a malformed outcome says of the unread text, and what is read of it without the trouble. -/
theorem Delivers.explain (delivers : Delivers read find?) (explains : ExplainsFaults find?)
    {cursor : Cursor} {start stop : Nat} {value : α} {fault : Fault}
    (found : (read cursor).outcome = .ok (.malformed start stop value fault))
    : ∃ front trouble rest,
        cursor.unread = front ++ (trouble ++ rest)
        ∧ stop = cursor.offset + front.length + trouble.length
        ∧ fault.Shows trouble rest
        ∧ (read (cursor.upTo (cursor.offset + front.length))).outcome
          = .ok (.complete start (cursor.offset + front.length) value) := by
  obtain ⟨length, inside, rfl, rfl⟩ :=
    Outcome.ofLexeme_eq_malformed (delivers.reads cursor _ found).symm
  obtain ⟨front, trouble, rest, split, taken, shows, complete⟩ :=
    explains cursor.unread _ fault inside rfl
  refine ⟨front, trouble, rest, split, ?_, shows, ?_⟩
  · dsimp only at taken
    omega
  · have unread : (cursor.upTo (cursor.offset + front.length)).unread = front := by
      rw [Cursor.unread_upTo, split, List.take_left]
    have again := delivers.completes (cursor.upTo (cursor.offset + front.length)) front.length value
      (unread.symm ▸ complete)
    rwa [Cursor.offset_upTo] at again

/-- A reading points at whatever its finder explains. -/
theorem Delivers.pointsAtFaults (delivers : Delivers read find?) (explains : ExplainsFaults find?)
    : PointsAtFaults read where
  separator := by
    intro cursor start stop value fault found inFraction
    obtain ⟨front, trouble, rest, split, rfl, shows, complete⟩ := delivers.explain explains found
    refine ⟨cursor.offset + front.length, ?_, ?_, complete⟩
    · cases shows with
      | separator => rfl
      | sign => rcases inFraction with impossible | impossible <;> contradiction
    · rw [Cursor.get?_add, split]
      cases shows with
      | separator => simp
      | sign => rcases inFraction with impossible | impossible <;> contradiction
  exponent := by
    intro cursor start stop value found
    obtain ⟨front, trouble, rest, split, rfl, shows, complete⟩ := delivers.explain explains found
    cases shows with
    | separator inFraction => rcases inFraction with impossible | impossible <;> contradiction
    | @sign marker letter sign _ marked signed noDigit =>
        refine ⟨cursor.offset + front.length, marker, letter, sign, rfl, ?_, marked, ?_, signed, ?_,
          complete⟩
        · rw [Cursor.get?_add, split]
          simp
        · rw [Nat.add_assoc, Cursor.get?_add, split]
          simp
        · have next : cursor.get? (cursor.offset + front.length + 2) = rest.head? := by
            rw [Nat.add_assoc, Cursor.get?_add, split, List.getElem?_append_right (by omega)]
            simp [List.head?_eq_getElem?]
          exact fun c first => noDigit c (next ▸ first)

theorem delivers_readRadix (options : Options) (radix : Radix)
    : Delivers (fun cursor => cursor.readRadix options radix) (radix.literal? options) where
  reads := by
    intro cursor outcome found
    exact (Except.ok.inj found).symm
  completes := by
    intro cursor length value found
    simp only [Cursor.readRadix, Cursor.read, found]
    rfl

theorem delivers_readLiteral (options : Options)
    : Delivers (fun cursor => cursor.readLiteral options) options.literal? where
  reads := by
    intro cursor outcome found
    exact Cursor.eq_ofLexeme_of_watch found
  completes := by
    intro cursor length value found
    simp only [Cursor.readLiteral, found]
    rw [Cursor.watch_of_unhalted _ (.inr rfl)]
    rfl

/-- Every way to read a literal without a sign points at what is wrong with it. -/
theorem readings_point_at_faults (options : Options)
    : (∀ radix, PointsAtFaults fun cursor => cursor.readRadix options radix)
      ∧ (PointsAtFaults fun cursor => cursor.readLiteral options)
      ∧ PointsAtFaults fun cursor => cursor.readNumber options := by
  have literal := (delivers_readLiteral options).pointsAtFaults options.literal?_explainsFaults
  refine ⟨fun radix => ?_, literal, literal.map Prod.snd⟩
  exact (delivers_readRadix options radix).pointsAtFaults (radix.literal?_explainsFaults options)

/-- A sign without digits, behind a hexadecimal literal. -/
theorem readings_point_at_faults_bare_sign
    : (((Cursor.ofText "0x1p+z".toList 0).upTo 3).readNumber {}).outcome
      = .ok (.complete 0 3 (Decimal.toBinary64 ⟨1, 0⟩ false)) := by
  have found : ((Cursor.ofText "0x1p+z".toList 0).readNumber {}).outcome
      = .ok (.malformed 0 5 (Decimal.toBinary64 ⟨1, 0⟩ false) .exponentExpected) := by
    decide +kernel
  obtain ⟨place, marker, letter, sign, ends, -, -, -, -, -, complete⟩ :=
    (readings_point_at_faults {}).2.2.exponent _ _ _ _ found
  obtain rfl : place = 3 := by omega
  exact complete

end Reading

end Numeral
