import Numeral.Proofs.Literal.Announcement
import Numeral.Proofs.Literal.Extent

/-! How far a literal looks. What a part of the grammar takes is settled by the text it takes
and by one code point behind it, or two if an exponent might begin there, and the end of the
text settles the same. So a literal stays what it is when the text is cut behind it.
-/

namespace Numeral

variable {α β : Type}

-----------------------------------------------------------------------------------------
-- What may follow instead
-----------------------------------------------------------------------------------------

/-- In place of `rest` may stand nothing, or what begins with the same `count` code points. -/
def Follows (count : Nat) (rest other : List Char) : Prop :=
  other = [] ∨ other.take count = rest.take count

/-- A finder tells what it finds from what it takes and `count` code points behind that. -/
def Delimited (count : Nat) (find? : List Char → Option (Lexeme α)) : Prop :=
  ∀ body rest other lexeme,
    find? (body ++ rest) = some lexeme
    → lexeme.length = body.length
    → Follows count rest other
    → find? (body ++ other) = some lexeme

/-- A finder finds the same when the text ends behind what it takes. -/
def SelfDelimited (find? : List Char → Option (Lexeme α)) : Prop :=
  ∀ body rest lexeme,
    find? (body ++ rest) = some lexeme
    → lexeme.length = body.length
    → find? body = some lexeme

section Follows

variable {rest other : List Char}

theorem Follows.of_two (follows : Follows 2 rest other)
    : Follows 1 rest other := by
  rcases follows with none | same
  · exact .inl none
  · have first := congrArg (List.take 1) same
    rw [List.take_take, List.take_take] at first
    exact .inr first

theorem Follows.mem_head? (follows : Follows 1 rest other)
    : ∀ c ∈ other.head?, c ∈ rest.head? := by
  intro c first
  rcases follows with rfl | same
  · contradiction
  · have heads := congrArg List.head? same
    rw [List.head?_take, List.head?_take, if_neg Nat.one_ne_zero, if_neg Nat.one_ne_zero] at heads
    exact heads ▸ first

/-- What stands before both does not set them apart. -/
theorem Follows.append (follows : Follows 1 rest other) (before : List Char)
    : Follows 1 (before ++ rest) (before ++ other) := by
  cases before with
  | nil => exact follows
  | cons c more => exact .inr (by simp)

end Follows

theorem Delimited.selfDelimited {count : Nat} {find? : List Char → Option (Lexeme α)}
    (delimited : Delimited count find?)
    : SelfDelimited find? := by
  intro body rest lexeme found length
  have cut := delimited body rest [] lexeme found length (.inl rfl)
  rwa [List.append_nil] at cut

/-- So it is enough that a text begins as another one does. -/
theorem Delimited.of_take {count : Nat} {find? : List Char → Option (Lexeme α)}
    (delimited : Delimited count find?) (takes : TakesPart find?) {text other : List Char}
    {lexeme : Lexeme α} (found : find? text = some lexeme)
    (same : other.take (lexeme.length + count) = text.take (lexeme.length + count))
    : find? other = some lexeme := by
  obtain ⟨-, inside⟩ := takes text lexeme found
  have begins := congrArg (List.take lexeme.length) same
  have ends := congrArg (List.drop lexeme.length) same
  rw [List.take_take, List.take_take, Nat.min_eq_left (Nat.le_add_right ..)] at begins
  rw [List.drop_take, List.drop_take, Nat.add_sub_cancel_left] at ends
  rw [← List.take_append_drop lexeme.length text] at found
  rw [← List.take_append_drop lexeme.length other, begins]
  exact delimited _ _ _ lexeme found (List.length_take_of_le inside).symm (.inr ends)

theorem SelfDelimited.take {find? : List Char → Option (Lexeme α)}
    (delimited : SelfDelimited find?) (takes : TakesPart find?) {text : List Char}
    {lexeme : Lexeme α} (found : find? text = some lexeme)
    : find? (text.take lexeme.length) = some lexeme := by
  obtain ⟨-, inside⟩ := takes text lexeme found
  rw [← List.take_append_drop lexeme.length text] at found
  exact delimited _ _ lexeme found (List.length_take_of_le inside).symm

-----------------------------------------------------------------------------------------
-- Parts of the grammar
-----------------------------------------------------------------------------------------

section Grammar

variable {radix : Radix} {marker : Marker} {separators : Bool} {body rest other : List Char}

theorem IsRun.follow {passes : Char → Bool} {run : List Char} (isRun : IsRun passes run rest)
    (follows : Follows 1 rest other)
    : IsRun passes run other where
  inside := isRun.inside
  ends c first := isRun.ends c (follows.mem_head? c first)

theorem Radix.SpellsFraction.follow {lexeme : Lexeme (List Nat)}
    (spells : radix.SpellsFraction separators body rest lexeme) (follows : Follows 1 rest other)
    : radix.SpellsFraction separators body other lexeme := by
  cases spells with
  | absent noPoint => exact .absent fun point => noPoint (follows.mem_head? _ point)
  | pointed isRun sound =>
      exact .pointed (isRun.follow follows)
        fun faulty separator => sound faulty (follows.mem_head? _ separator)
  | separated faulty inside => exact .separated faulty inside

theorem Radix.SpellsSignificand.follow {lexeme : Lexeme Significand}
    (spells : radix.SpellsSignificand separators body rest lexeme)
    (follows : Follows 1 rest other)
    : radix.SpellsSignificand separators body other lexeme := by
  obtain ⟨isRun, digits, behind⟩ := spells
  exact .mk (isRun.follow (follows.append _)) digits (behind.follow follows)

theorem Marker.SpellsExponent.follow {lexeme : Lexeme Int}
    (spells : marker.SpellsExponent body rest lexeme) (follows : Follows 1 rest other)
    : marker.SpellsExponent body other lexeme := by
  cases spells with
  | digits marked present isRun => exact .digits marked present (isRun.follow follows)
  | bare marked noDigit =>
      exact .bare marked fun c first => noDigit c (follows.mem_head? c first)

/-- A text is split in one way into what is taken and what is left. -/
theorem split_unique {taken left : List Char} {lexeme : Lexeme α}
    (same : body ++ rest = taken ++ left) (length : lexeme.length = body.length)
    (taking : lexeme.length = taken.length)
    : taken = body ∧ left = rest := by
  obtain ⟨rfl, rfl⟩ := List.append_inj same (length.symm.trans taking)
  exact ⟨rfl, rfl⟩

theorem Radix.significand?_delimited (radix : Radix) (separators : Bool)
    : Delimited 1 (radix.significand? separators) := by
  intro body rest other lexeme found length follows
  obtain ⟨taken, left, same, spells⟩ := Radix.significand?_spelled found
  obtain ⟨rfl, rfl⟩ := split_unique same length spells.length_eq
  exact (spells.follow follows).read

theorem Marker.exponent?_delimited (marker : Marker)
    : Delimited 1 marker.exponent? := by
  intro body rest other lexeme found length follows
  obtain ⟨taken, left, same, spells⟩ := Marker.exponent?_eq_some found
  obtain ⟨rfl, rfl⟩ := split_unique same length spells.length_eq
  exact (spells.follow follows).read

/-- Whether an exponent begins is told by two code points. -/
theorem Marker.exponent?_eq_none_of_follows (none : marker.exponent? rest = none)
    (follows : Follows 2 rest other)
    : marker.exponent? other = Option.none := by
  rcases follows with rfl | same
  · rfl
  · rw [← Option.not_isSome_iff_eq_none, exponent?_isSome_iff] at none ⊢
    rwa [same]

end Grammar

-----------------------------------------------------------------------------------------
-- Literals
-----------------------------------------------------------------------------------------

section Literal

variable {body rest other : List Char}

theorem Marker.suffix?_eq_none_iff
    : suffix? rest = none ↔ ∀ marker : Marker, marker.exponent? rest = none := by
  rw [suffix?, Option.or_eq_none_iff, Option.map_eq_none_iff, Option.map_eq_none_iff]
  constructor
  · rintro ⟨noDecimal, noBinary⟩ (_ | _)
    · exact noDecimal
    · exact noBinary
  · exact fun none => ⟨none .decimal, none .binary⟩

/-- The letter tells which exponent it is. -/
theorem Marker.suffix?_of_isSome {marker : Marker}
    (present : (marker.exponent? rest).isSome = true)
    : suffix? rest = (marker.exponent? rest).map (·.map (marker, ·)) := by
  obtain ⟨exponent, found⟩ := Option.isSome_iff_exists.mp present
  cases marker with
  | decimal => rw [suffix?, found, Option.map_some, Option.some_or]
  | binary =>
      obtain ⟨letter, next, start, marked, -⟩ := (binary.exponent?_isSome_iff rest).mp present
      have otherwise : decimal.exponent? rest = none := by
        rw [← Option.not_isSome_iff_eq_none, exponent?_isSome_iff, start]
        rintro ⟨letter', next', same, marked', -⟩
        cases same
        simp only [hasLetter, Bool.or_eq_true, beq_iff_eq] at marked marked'
        rcases marked with rfl | rfl <;> simp at marked'
      rw [suffix?, otherwise, Option.map_none, Option.none_or]

theorem Marker.suffix?_delimited
    : Delimited 1 suffix? := by
  intro body rest other lexeme found length follows
  obtain ⟨marker, inner, present, rfl⟩ := suffix?_eq_some found
  have same := marker.exponent?_delimited body rest other inner present length follows
  rw [suffix?_of_isSome (Option.isSome_of_eq_some same), same]
  rfl

/-- What a value is scaled by is told from the exponent, or from two code points that begin
none.
-/
theorem Binary64.scaleBy_follow (x : Binary64) (scaleByTen : Int → Binary64)
    (length : (x.scaleBy scaleByTen (body ++ rest)).length = body.length)
    (follows : Follows 2 rest other)
    : x.scaleBy scaleByTen (body ++ other) = x.scaleBy scaleByTen (body ++ rest) := by
  unfold scaleBy at length ⊢
  cases found : Marker.suffix? (body ++ rest) with
  | none =>
      simp only [found] at length
      obtain rfl := List.eq_nil_of_length_eq_zero length.symm
      rw [List.nil_append] at found ⊢
      rw [Marker.suffix?_eq_none_iff.mpr fun marker =>
        Marker.exponent?_eq_none_of_follows (Marker.suffix?_eq_none_iff.mp found marker) follows]
  | some exponent =>
      simp only [found, Lexeme.length_map] at length
      rw [Marker.suffix?_delimited body rest other exponent found length follows.of_two]

/-- Two code points behind a literal of one radix settle it. -/
theorem Radix.literal?_delimited (radix : Radix) (options : Options)
    : Delimited 2 (radix.literal? options) := by
  intro body rest other lexeme found length follows
  obtain ⟨significand, before, same⟩ := Option.map_eq_some_iff.mp found
  split at same
  next faulty =>
    subst same
    have again := radix.significand?_delimited options.digitSeparators body rest other
      significand before length follows.of_two
    rw [literal?, again, Option.map_some, if_pos faulty]
  next sound =>
    subst same
    obtain ⟨front, back, rfl, split⟩ : ∃ front back,
        body = front ++ back ∧ significand.length = front.length := by
      refine ⟨body.take significand.length, body.drop significand.length, ?_, ?_⟩
      · rw [List.take_append_drop]
      · rw [Lexeme.length_extend] at length
        rw [List.length_take]
        omega
    simp only [List.append_assoc] at before found length ⊢
    have again := radix.significand?_delimited options.digitSeparators front (back ++ rest)
      (back ++ other) significand before split (follows.of_two.append back)
    rw [split, List.drop_left] at length ⊢
    rw [Lexeme.length_extend, List.length_append, Nat.add_left_cancel_iff] at length
    rw [literal?, again, Option.map_some, if_neg sound, split, List.drop_left,
      Binary64.scaleBy_follow _ _ length follows]

namespace Options

variable {options : Options}

/-- The choice of the radix does not change when the text is cut behind a literal of it. -/
theorem Selects.cut {radix : Radix} (selects : options.Selects (body ++ rest) radix)
    (found : (radix.literal? options body).isSome = true)
    : options.Selects body radix := by
  cases radix with
  | binary | hexadecimal => exact ⟨selects.1, Radix.literal?_isSome_iff.mp found⟩
  | decimal =>
      exact ⟨fun announces => selects.1 ⟨announces.1, announces.2.append rest⟩,
        fun announces => selects.2 ⟨announces.1, announces.2.append rest⟩⟩

theorem literal?_selfDelimited (options : Options)
    : SelfDelimited options.literal? := by
  intro body rest lexeme found length
  obtain ⟨radix, selects⟩ := options.exists_selects (body ++ rest)
  rw [literal?_of_selects selects] at found
  obtain ⟨inner, innerFound, rfl⟩ := Option.map_eq_some_iff.mp found
  have same := (radix.literal?_delimited options).selfDelimited body rest inner innerFound length
  rw [literal?_of_selects (selects.cut (Option.isSome_of_eq_some same)), same]
  rfl

/-- Cut behind a signed number the text has the same sign and the same literal behind it. -/
theorem signed_take {text : List Char} {lexeme : Lexeme Binary64}
    (found : options.signedNumber? text = some lexeme)
    : Sign.leading? (text.take lexeme.length) = Sign.leading? text
      ∧ options.literal? ((text.take lexeme.length).drop (Sign.length (Sign.leading? text)))
        = options.literal? (text.drop (Sign.length (Sign.leading? text))) := by
  obtain ⟨positive, -⟩ := options.signedNumber?_takesPart text lexeme found
  obtain ⟨number, numberFound, rfl⟩ := Option.map_eq_some_iff.mp found
  obtain ⟨literal, literalFound, rfl⟩ := Option.map_eq_some_iff.mp numberFound
  constructor
  · rw [Sign.leading?, List.head?_take, if_neg (Nat.ne_of_gt positive)]
    rfl
  · rw [Lexeme.length_extend, List.drop_take, Nat.add_sub_cancel_left, literalFound]
    exact options.literal?_selfDelimited.take options.literal?_takesPart literalFound

theorem signedNumber?_take {text : List Char} {lexeme : Lexeme Binary64}
    (found : options.signedNumber? text = some lexeme)
    : options.signedNumber? (text.take lexeme.length) = some lexeme := by
  obtain ⟨sign, literal⟩ := signed_take found
  rw [← found, signedNumber?, signedNumber?, sign, number?, number?, literal]

end Options

end Literal

end Numeral
