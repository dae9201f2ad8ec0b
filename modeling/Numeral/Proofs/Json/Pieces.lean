import Numeral.Json.Piece

/-! Strings read as they are written. Every piece has a written form that the reader takes for
that piece alone, whatever follows, and the reader makes no other pieces than those with one.
-/

namespace Numeral.Json.Piece

/-- A half of a surrogate pair has the code of one. -/
def IsSound : Piece → Prop
  | char _ => True
  | half code => isFirstHalf code = true ∨ isSecondHalf code = true

variable {pieces : List Piece} {text rest : List Char}

theorem isSound_char (c : Char)
    : (char c).IsSound := trivial

theorem half_lt {code : Nat} (sound : IsSound (half code))
    : code < 0x10000 := by
  simp only [IsSound, isFirstHalf, isSecondHalf, decide_eq_true_eq] at sound
  omega

-----------------------------------------------------------------------------------------
-- Reading what is written
-----------------------------------------------------------------------------------------

theorem value?_digitChar : ∀ digit < 16, Digit.value? 16 (Nat.digitChar digit) = some digit := by
  decide

theorem code?_digitChars {a b c d : Nat} (ha : a < 16) (hb : b < 16) (hc : c < 16) (hd : d < 16)
    : code? [a.digitChar, b.digitChar, c.digitChar, d.digitChar]
      = some (((a * 16 + b) * 16 + c) * 16 + d) := by
  simp [code?, Digit.isDigit, Digit.values, Digit.number, value?_digitChar, ha, hb, hc, hd]

/-- An escape with four digits names what it was written for. -/
theorem read?_writeCode_append {code : Nat} (small : code < 0x10000) (rest : List Char)
    : read? (writeCode code ++ rest)
      = (read? rest).map fun (pieces, rest) => (ofCode code :: pieces, rest) := by
  have digits := code?_digitChars (a := code / 0x1000) (b := code / 0x100 % 0x10)
    (c := code / 0x10 % 0x10) (d := code % 0x10) (by omega) (by omega) (by omega) (by omega)
  have same : ((code / 0x1000 * 16 + code / 0x100 % 0x10) * 16 + code / 0x10 % 0x10) * 16
      + code % 0x10 = code := by
    omega
  rw [same] at digits
  simp only [writeCode, List.map_cons, List.map_nil, List.cons_append, List.nil_append, read?,
    digits, Option.bind_some]

theorem ofCode_toNat {c : Char} (control : c < ' ')
    : ofCode c.toNat = char c := by
  have small : c.toNat < 0x20 := control
  have noHalf : (isFirstHalf c.toNat || isSecondHalf c.toNat) = false := by
    simp only [isFirstHalf, isSecondHalf, Bool.or_eq_false_iff, decide_eq_false_iff_not]
    omega
  rw [ofCode, if_neg (by simp [noHalf]), Char.ofNat_toNat]

theorem ofCode_half {code : Nat} (sound : IsSound (half code))
    : ofCode code = half code := by
  have isHalf : (isFirstHalf code || isSecondHalf code) = true := by
    simpa [IsSound] using sound
  rw [ofCode, if_pos isHalf]

/-- An escape with a letter of its own names what the letter stands for. -/
theorem read?_escape {letter c : Char} (other : letter ≠ 'u') (named : ofEscape? letter = some c)
    (rest : List Char)
    : read? ('\\' :: letter :: rest)
      = (read? rest).map fun (pieces, rest) => (char c :: pieces, rest) := by
  rw [read?, named, Option.bind_some]
  rintro _ _ _ _ _ rfl
  contradiction

/-- A character that needs no escape stands for itself. -/
theorem read?_plain {c : Char} (noQuote : c ≠ '"') (noEscape : c ≠ '\\') (printed : ¬ c < ' ')
    (rest : List Char)
    : read? (c :: rest) = (read? rest).map fun (pieces, rest) => (char c :: pieces, rest) := by
  rw [read?, if_neg printed]
  · exact noQuote
  · rintro _ _ _ _ _ rfl
    contradiction
  · rintro _ _ rfl
    contradiction

theorem ofEscape?_of_mem
    : ∀ escape ∈ shortEscapes, escape.2 ≠ 'u' ∧ ofEscape? escape.2 = some escape.1 := by
  decide

theorem read?_write_append {piece : Piece} (sound : piece.IsSound) (rest : List Char)
    : read? (piece.write ++ rest)
      = (read? rest).map fun (pieces, rest) => (piece :: pieces, rest) := by
  cases piece with
  | half code => rw [write, read?_writeCode_append (half_lt sound), ofCode_half sound]
  | char c =>
      rw [write]
      split
      next escaped letter found =>
        obtain rfl : escaped = c := by simpa using List.find?_some found
        obtain ⟨other, named⟩ := ofEscape?_of_mem _ (List.mem_of_find?_eq_some found)
        split
        next slash =>
          subst slash
          exact read?_plain (by decide) (by decide) (by decide) rest
        next => exact read?_escape other named rest
      next missing =>
        have unescaped := List.find?_eq_none.mp missing
        have noQuote : c ≠ '"' := by
          rintro rfl
          exact unescaped ('"', '"') (by decide) rfl
        have noEscape : c ≠ '\\' := by
          rintro rfl
          exact unescaped ('\\', '\\') (by decide) rfl
        split
        next control =>
          have small : c.toNat < 0x20 := control
          rw [read?_writeCode_append (by omega), ofCode_toNat control]
        next printed => exact read?_plain noQuote noEscape printed rest

/-- What is written is read, up to the quote behind it. -/
theorem read?_flatMap_write (sound : ∀ piece ∈ pieces, piece.IsSound) (rest : List Char)
    : read? (pieces.flatMap write ++ '"' :: rest) = some (pieces, rest) := by
  induction pieces with
  | nil => simp [read?]
  | cons piece others ih =>
      obtain ⟨first, later⟩ := List.forall_mem_cons.mp sound
      rw [List.flatMap_cons, List.append_assoc, read?_write_append first, ih later,
        Option.map_some]

-----------------------------------------------------------------------------------------
-- What is read
-----------------------------------------------------------------------------------------

theorem isSound_ofCode (code : Nat)
    : (ofCode code).IsSound := by
  rw [ofCode]
  split
  next isHalf => simpa [IsSound] using isHalf
  next => trivial

/-- Reading makes sound pieces. -/
theorem isSound_of_read? (found : read? text = some (pieces, rest))
    : ∀ piece ∈ pieces, piece.IsSound := by
  have grow {tail : List Char} {first : Piece} {pieces : List Piece} {rest : List Char}
      (sound : first.IsSound)
      (ih : ∀ {pieces rest}, read? tail = some (pieces, rest) → ∀ piece ∈ pieces, piece.IsSound)
      (found : (read? tail).map (fun (pieces, rest) => (first :: pieces, rest))
        = some (pieces, rest))
      : ∀ piece ∈ pieces, piece.IsSound := by
    obtain ⟨⟨inner, last⟩, inside, same⟩ := Option.map_eq_some_iff.mp found
    obtain ⟨rfl, rfl⟩ := Prod.mk.inj same
    exact List.forall_mem_cons.mpr ⟨sound, ih inside⟩
  fun_induction read? text generalizing pieces rest with
  | case1 => contradiction
  | case2 =>
      obtain ⟨rfl, rfl⟩ := Prod.mk.inj (Option.some.inj found)
      simp
  | case3 a b c d tail ih =>
      obtain ⟨code, -, found⟩ := Option.bind_eq_some_iff.mp found
      exact grow (isSound_ofCode code) ih found
  | case4 letter tail _ ih =>
      obtain ⟨c, -, found⟩ := Option.bind_eq_some_iff.mp found
      exact grow (isSound_char _) ih found
  | case5 => contradiction
  | case6 c tail _ _ _ _ ih => exact grow (isSound_char _) ih found

theorem isSound_ofText (text : List Char)
    : ∀ piece ∈ ofText text, piece.IsSound := by
  simp [ofText, IsSound]

end Numeral.Json.Piece
