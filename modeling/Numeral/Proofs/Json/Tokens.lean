import Numeral.Json.Token
import Numeral.Proofs.Json.Pieces
import Numeral.Proofs.Literal.Grammar

/-! Tokens read as they are written. A number is told from what follows it by its characters
alone, so it needs something else behind it; every other token ends by itself.
-/

namespace Numeral.Json.Token

/-- A number is written as one, and a string has pieces that can be written. -/
def IsSound : Token → Prop
  | number written => isNumber written = true
  | string pieces => ∀ piece ∈ pieces, piece.IsSound
  | _ => True

/-- What follows a number does not look like more of it. -/
def EndsNumber (rest : List Char) : Prop :=
  ∀ c ∈ rest.head?, isNumberCharacter c = false

variable {token : Token} {tokens : List Token} {text rest written : List Char}

-----------------------------------------------------------------------------------------
-- The characters of a number
-----------------------------------------------------------------------------------------

theorem isNumberCharacter_of_isDigit {c : Char} (digit : Digit.isDigit 10 c = true)
    : isNumberCharacter c = true := by
  simp [isNumberCharacter, digit]

theorem isNumberCharacter_of_all (digits : text.all (Digit.isDigit 10) = true)
    : ∀ c ∈ text, isNumberCharacter c = true :=
  fun c member => isNumberCharacter_of_isDigit (List.all_eq_true.mp digits c member)

theorem isNumberCharacter_of_isExponent (exponent : isExponent text = true)
    : ∀ c ∈ text, isNumberCharacter c = true := by
  cases text with
  | nil => simp
  | cons letter rest =>
      simp only [isExponent, Bool.and_eq_true, Bool.or_eq_true, beq_iff_eq] at exponent
      obtain ⟨⟨marked, -⟩, digits⟩ := exponent
      refine List.forall_mem_cons.mpr ⟨?_, ?_⟩
      · rcases marked with rfl | rfl <;> decide
      · split at digits
        next => exact List.forall_mem_cons.mpr ⟨by decide, isNumberCharacter_of_all digits⟩
        next => exact List.forall_mem_cons.mpr ⟨by decide, isNumberCharacter_of_all digits⟩
        next => exact isNumberCharacter_of_all digits

theorem isNumberCharacter_of_isNumberEnd (ends : isNumberEnd text = true)
    : ∀ c ∈ text, isNumberCharacter c = true := by
  unfold isNumberEnd at ends
  split at ends
  next fraction =>
    obtain ⟨digits, rest, rfl, isRun⟩ := exists_isRun (Digit.isDigit 10) fraction
    simp only [isRun.takeWhile_append, List.drop_left, Bool.and_eq_true] at ends
    refine List.forall_mem_cons.mpr ⟨by decide, List.forall_mem_append.mpr ⟨?_, ?_⟩⟩
    · exact fun c member => isNumberCharacter_of_isDigit (isRun.inside c member)
    · exact isNumberCharacter_of_isExponent ends.2
  next => exact isNumberCharacter_of_isExponent ends

/-- A number is digits with what may follow them, and a minus sign that may be left out. -/
theorem exists_digits_of_isNumber (sound : isNumber written = true)
    : ∃ minus digits rest,
        written = minus ++ (digits ++ rest)
        ∧ (minus = [] ∨ minus = ['-'])
        ∧ IsRun (Digit.isDigit 10) digits rest
        ∧ digits ≠ []
        ∧ (digits.length = 1 ∨ digits.head? ≠ some '0')
        ∧ isNumberEnd rest = true := by
  have split {unsigned : List Char}
      (sound : (let digits := unsigned.takeWhile (Digit.isDigit 10)
        !digits.isEmpty && (digits.length == 1 || digits.head? != some '0')
          && isNumberEnd (unsigned.drop digits.length)) = true)
      : ∃ digits rest,
          unsigned = digits ++ rest
          ∧ IsRun (Digit.isDigit 10) digits rest
          ∧ digits ≠ []
          ∧ (digits.length = 1 ∨ digits.head? ≠ some '0')
          ∧ isNumberEnd rest = true := by
    obtain ⟨digits, rest, rfl, isRun⟩ := exists_isRun (Digit.isDigit 10) unsigned
    simp only [isRun.takeWhile_append, List.drop_left, Bool.and_eq_true, Bool.or_eq_true,
      Bool.not_eq_true', List.isEmpty_eq_false_iff, beq_iff_eq, bne_iff_ne] at sound
    exact ⟨digits, rest, rfl, isRun, sound.1.1, sound.1.2, sound.2⟩
  unfold isNumber at sound
  split at sound
  next unsigned =>
    obtain ⟨digits, rest, rfl, parts⟩ := split sound
    exact ⟨['-'], digits, rest, rfl, .inr rfl, parts⟩
  next =>
    obtain ⟨digits, rest, rfl, parts⟩ := split sound
    exact ⟨[], digits, rest, rfl, .inl rfl, parts⟩

theorem isNumberCharacter_of_isNumber (sound : isNumber written = true)
    : ∀ c ∈ written, isNumberCharacter c = true := by
  obtain ⟨minus, digits, rest, rfl, sign, isRun, -, -, ends⟩ := exists_digits_of_isNumber sound
  refine List.forall_mem_append.mpr ⟨?_, List.forall_mem_append.mpr ⟨?_, ?_⟩⟩
  · rcases sign with rfl | rfl
    · simp
    · exact List.forall_mem_cons.mpr ⟨by decide, by simp⟩
  · exact fun c member => isNumberCharacter_of_isDigit (isRun.inside c member)
  · exact isNumberCharacter_of_isNumberEnd ends

-----------------------------------------------------------------------------------------
-- Reading what is written
-----------------------------------------------------------------------------------------

/-- A text that begins like a number is read as the number that its characters are. -/
theorem next?_number (sound : isNumber written = true) (ends : EndsNumber rest)
    : next? (written ++ rest) = some (number written, rest) := by
  have characters := isNumberCharacter_of_isNumber sound
  have isRun : IsRun isNumberCharacter written rest := ⟨characters, ends⟩
  have begins : ∃ c ∈ (written ++ rest).head?, isNumberCharacter c = true := by
    cases written with
    | nil => simp [not_isNumber_nil] at sound
    | cons c more => exact ⟨c, rfl, characters c List.mem_cons_self⟩
  obtain ⟨first, head, character⟩ := begins
  generalize same : written ++ rest = text at head ⊢
  unfold next?
  split
  case h_11 =>
    subst same
    simp only [isRun.takeWhile_append, sound, if_true, List.drop_left]
  all_goals
    obtain rfl := Option.some.inj head
    contradiction

/-- A token is read as it is written, a number if something else follows it. -/
theorem next?_write_append (sound : token.IsSound)
    (ends : ∀ written, token = number written → EndsNumber rest)
    : next? (token.write ++ rest) = some (token, rest) := by
  cases token with
  | number written => exact next?_number sound (ends written rfl)
  | string pieces =>
      rw [write, List.cons_append, List.append_assoc, next?]
      have read := Piece.read?_flatMap_write sound rest
      rw [List.singleton_append, read, Option.map_some]
  | bool value => cases value <;> simp [write, next?]
  | _ => simp [write, next?]

/-- No token begins with a blank. -/
theorem isBlank_of_next? {c : Char} {after : List Char}
    (found : next? (c :: rest) = some (token, after))
    : isBlank c = false := by
  by_contra blank
  simp only [isBlank, Bool.not_eq_false, Bool.or_eq_true, beq_iff_eq] at blank
  have noNumber : (c :: rest).takeWhile isNumberCharacter = [] := by
    have unlike : isNumberCharacter c = false := by
      rcases blank with ((rfl | rfl) | rfl) | rfl <;> decide
    rw [List.takeWhile_cons, unlike, if_neg Bool.false_ne_true]
  rcases blank with ((rfl | rfl) | rfl) | rfl <;>
    simp [next?, noNumber, not_isNumber_nil] at found

/-- The token that is read first comes first. -/
theorem ofText?_of_next? (found : next? text = some (token, rest))
    : ofText? text = (ofText? rest).map (token :: ·) := by
  cases text with
  | nil => simp [next?, not_isNumber_nil] at found
  | cons c behind =>
      rw [ofText?, isBlank_of_next? found, if_neg Bool.false_ne_true]
      split
      next none => simp [none] at found
      next first after same =>
        rw [found] at same
        obtain ⟨rfl, rfl⟩ := Prod.mk.inj (Option.some.inj same)
        rfl

/-- A text of these tokens is read as them, before anything that does not go on with a number. -/
def Reads (tokens : List Token) : Prop :=
  ∀ rest,
    EndsNumber rest
    → ofText? (tokens.flatMap write ++ rest) = (ofText? rest).map (tokens ++ ·)

/-- A token that ends what is before it, be it a number. -/
def IsMark (token : Token) : Prop :=
  token = comma ∨ token = closeArray ∨ token = closeObject

/-- One more token in front, which is no number. -/
theorem Reads.cons (reads : Reads tokens) (sound : token.IsSound)
    (apart : ∀ written, token ≠ number written)
    : Reads (token :: tokens) := by
  intro rest ends
  have first : next? (token.write ++ (tokens.flatMap write ++ rest)) = some (token, _) :=
    next?_write_append sound fun written same => (apart written same).elim
  rw [List.flatMap_cons, List.append_assoc, ofText?_of_next? first, reads rest ends,
    Option.map_map]
  rfl

theorem reads_singleton (sound : token.IsSound)
    : Reads [token] := by
  intro rest ends
  have first := next?_write_append sound fun _ _ => ends
  simpa using ofText?_of_next? first

/-- A mark parts the tokens before it from those that it begins. -/
theorem Reads.append {before after : List Token} (first : Reads before) (later : Reads after)
    (mark : ∃ token ∈ after.head?, token.IsMark)
    : Reads (before ++ after) := by
  intro rest ends
  obtain ⟨token, head, isMark⟩ := mark
  obtain ⟨others, rfl⟩ := List.head?_eq_some_iff.mp (Option.mem_def.mp head)
  have parted : EndsNumber ((token :: others).flatMap write ++ rest) := by
    rintro c same
    rcases isMark with rfl | rfl | rfl <;>
      · obtain rfl := Option.some.inj same
        decide
  rw [List.flatMap_append, List.append_assoc, first _ parted, later rest ends, Option.map_map]
  congr 1
  funext more
  exact (List.append_assoc ..).symm

-----------------------------------------------------------------------------------------
-- What is read
-----------------------------------------------------------------------------------------

theorem isSound_of_next? (found : next? text = some (token, rest))
    : token.IsSound := by
  revert found
  fun_cases next? text with
  | case10 tail =>
      intro found
      obtain ⟨⟨pieces, last⟩, inside, same⟩ := Option.map_eq_some_iff.mp found
      obtain ⟨rfl, rfl⟩ := Prod.mk.inj same
      exact Piece.isSound_of_read? inside
  | case11 =>
      rename_i written isNumber
      intro found
      obtain ⟨rfl, rfl⟩ := Prod.mk.inj (Option.some.inj found)
      exact isNumber
  | case12 => simp
  | _ =>
      intro found
      obtain ⟨rfl, rfl⟩ := Prod.mk.inj (Option.some.inj found)
      trivial

/-- Reading makes sound tokens. -/
theorem isSound_of_ofText? (found : ofText? text = some tokens)
    : ∀ token ∈ tokens, token.IsSound := by
  fun_induction ofText? text generalizing tokens with
  | case1 =>
      obtain rfl := Option.some.inj found
      simp
  | case2 c rest _ ih => exact ih found
  | case3 => contradiction
  | case4 c rest _ token after first ih =>
      obtain ⟨others, later, rfl⟩ := Option.map_eq_some_iff.mp found
      exact List.forall_mem_cons.mpr ⟨isSound_of_next? first, ih later⟩

end Numeral.Json.Token
