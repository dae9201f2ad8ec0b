import Mathlib.Data.List.Basic
import Mathlib.Data.List.GetD
import Mathlib.Order.MinMax
import Numeral.Fuzz.Sample

/-! What is drawn from a tape, whatever the tape holds. A literal is short and plain, so it
takes as many bytes as characters; a piece that stands beside numbers takes five at most.
That bounds what a round appends, and some round appends as much.
-/

namespace Numeral.Fuzz

namespace Draw

variable {α β : Type} {draw : Draw α} {holds : α → Prop}

/-- `holds` is true of what is drawn from any tape. -/
def Always (draw : Draw α) (holds : α → Prop) : Prop :=
  ∀ tape, holds (draw.run tape).1

theorem Always.imp {weaker : α → Prop} (always : draw.Always holds)
    (implies : ∀ value, holds value → weaker value)
    : draw.Always weaker :=
  fun tape => implies _ (always tape)

theorem always_pure {value : α} (true_of : holds value) : Always (pure value) holds :=
  fun _ => true_of

/-- What is drawn second may depend on all that is known of the first. -/
theorem always_bind {next : α → Draw β} {after : β → Prop} (holds : α → Prop)
    (first : draw.Always holds)
    (second : ∀ value, holds value → (next value).Always after)
    : Always (draw >>= next) after :=
  fun tape => second _ (first tape) _

theorem always_below (n : Nat) : (below (n + 1)).Always (· ≤ n) :=
  fun tape => Nat.le_of_lt_succ (Nat.mod_lt (tape.headD 0).toNat n.succ_pos)

theorem always_oneOf {first : α} {others : List α}
    (each : ∀ value ∈ first :: others, holds value)
    : Always (oneOf first others) holds := by
  refine always_bind _ (always_below others.length) fun place inside => always_pure ?_
  rw [List.getD_eq_getElem _ _ (Nat.lt_succ_of_le inside)]
  exact each _ (List.getElem_mem _)

theorem always_times (each : draw.Always holds) (n : Nat)
    : Always (times n draw) fun values => values.length = n ∧ ∀ value ∈ values, holds value := by
  induction n with
  | zero => exact always_pure ⟨rfl, fun _ absent => absurd absent List.not_mem_nil⟩
  | succ n ih =>
      refine always_bind _ each fun first holdsFirst =>
        always_bind _ ih fun rest ⟨length, holdsRest⟩ => always_pure ⟨?_, ?_⟩
      · exact congrArg Nat.succ length
      · exact List.forall_mem_cons.mpr ⟨holdsFirst, holdsRest⟩

theorem always_upTo (each : draw.Always holds) (most : Nat)
    : Always (upTo most draw) fun values =>
      values.length ≤ most ∧ ∀ value ∈ values, holds value :=
  always_bind _ (always_below most) fun n small =>
    (always_times each n).imp fun _ ⟨length, all⟩ => ⟨length ▸ small, all⟩

theorem always_sometimes {draw : Draw (List α)} {holds : List α → Prop}
    (nothing : holds []) (something : draw.Always holds)
    : Always (sometimes draw) holds := by
  refine always_bind (fun _ => True) (fun _ => trivial) fun chosen _ => ?_
  cases chosen with
  | false => exact always_pure nothing
  | true => exact something

end Draw

-----------------------------------------------------------------------------------------
-- Literals
-----------------------------------------------------------------------------------------

/-- At most `most` characters, each of which is one byte. -/
structure Plain (most : Nat) (text : List Char) : Prop where
  short : text.length ≤ most
  ascii : ∀ char ∈ text, char.toNat < 128

instance (most : Nat) (text : List Char) : Decidable (Plain most text) :=
  decidable_of_iff (text.length ≤ most ∧ text.all (·.toNat < 128) = true)
    ⟨fun ⟨short, ascii⟩ => ⟨short, by simpa using ascii⟩,
      fun ⟨short, ascii⟩ => ⟨short, by simpa using ascii⟩⟩

namespace Plain

variable {most more : Nat} {text rest : List Char}

theorem nil (most : Nat) : Plain most [] :=
  ⟨Nat.zero_le most, fun _ absent => absurd absent List.not_mem_nil⟩

theorem append (plain : Plain most text) (follows : Plain more rest)
    : Plain (most + more) (text ++ rest) where
  short := by
    rw [List.length_append]
    exact Nat.add_le_add plain.short follows.short
  ascii := List.forall_mem_append.mpr ⟨plain.ascii, follows.ascii⟩

theorem cons {char : Char} (one : char.toNat < 128) (follows : Plain more rest)
    : Plain (more + 1) (char :: rest) where
  short := Nat.succ_le_succ follows.short
  ascii := List.forall_mem_cons.mpr ⟨one, follows.ascii⟩

/-- In plain text the code of each character is its byte. -/
theorem encode_eq (plain : Plain most text)
    : Utf8.encode text = text.map Char.toUInt8 := by
  have one : ∀ char ∈ text, String.utf8EncodeChar char = [char.toUInt8] := by
    intro char present
    have size : char.utf8Size = 1 := by
      rw [Char.utf8Size_eq_one_iff, UInt32.le_iff_toNat_le]
      exact Nat.le_of_lt_succ (plain.ascii char present)
    exact String.utf8EncodeChar_eq_singleton size
  rw [Utf8.encode, List.flatMap_congr one, List.map_eq_flatMap]

end Plain

/-- An alphabet of characters that are one byte each, with a lead of two at most. -/
structure Alphabet.Plain (alphabet : Alphabet) : Prop where
  lead : Fuzz.Plain 2 alphabet.lead
  digits : Fuzz.Plain 23 (alphabet.first :: alphabet.others)

theorem Alphabet.plain_of_mem
    : ∀ alphabet ∈ [Alphabet.binary, .hexadecimal, .decimal], alphabet.Plain := by
  have all : ∀ alphabet ∈ [Alphabet.binary, .hexadecimal, .decimal],
      Fuzz.Plain 2 alphabet.lead ∧ Fuzz.Plain 23 (alphabet.first :: alphabet.others) := by
    decide +kernel
  exact fun alphabet one => ⟨(all alphabet one).1, (all alphabet one).2⟩

/-- What is drawn from plain characters is plain, and as short as it is asked to be. -/
theorem Plain.always_upTo {first : Char} {others : List Char} {count : Nat}
    (plain : Plain count (first :: others)) (most : Nat)
    : (Draw.upTo most (Draw.oneOf first others)).Always (Plain most) :=
  (Draw.always_upTo (Draw.always_oneOf plain.ascii) most).imp fun _ ⟨short, ascii⟩ =>
    ⟨short, ascii⟩

/-- The longest literals have a sign, a lead of two, 24 digits, a point with 12 more, and a
marker with a sign and four digits.
-/
def longestLiteral : Nat := 1 + 2 + 24 + 13 + 6

/-- Every literal that is drawn is plain text of 46 characters at most. -/
theorem always_drawLiteral : drawLiteral.Always (Plain longestLiteral) := by
  have signs : ∀ sign ∈ [['-'], ['+'], []], Plain 1 sign := by decide
  have markers : Plain 4 ['e', 'E', 'p', 'P'] := by decide
  have directions : Plain 2 ['+', '-'] := by decide
  have digits : Plain 10 ('0' :: "123456789".toList) := by decide +kernel
  refine Draw.always_bind _ (Draw.always_oneOf signs) fun sign plainSign => ?_
  refine Draw.always_bind _ (Draw.always_oneOf Alphabet.plain_of_mem)
    fun alphabet plainAlphabet => ?_
  refine Draw.always_bind _ (plainAlphabet.digits.always_upTo 24) fun whole plainWhole => ?_
  refine Draw.always_bind (Plain 13) ?fraction fun fraction plainFraction => ?_
  case fraction =>
    refine Draw.always_sometimes (Plain.nil 13) ?_
    exact Draw.always_bind _ (plainAlphabet.digits.always_upTo 12) fun _ plain =>
      Draw.always_pure (plain.cons (by decide))
  refine Draw.always_bind (Plain 6) ?exponent fun exponent plainExponent => ?_
  case exponent =>
    refine Draw.always_sometimes (Plain.nil 6) ?_
    refine Draw.always_bind _ (Draw.always_oneOf markers.ascii) fun marker plainMarker => ?_
    refine Draw.always_bind (Plain 1) ?direction fun direction plainDirection => ?_
    case direction =>
      refine Draw.always_sometimes (Plain.nil 1) ?_
      exact Draw.always_bind _ (Draw.always_oneOf directions.ascii) fun _ plain =>
        Draw.always_pure ((Plain.nil 0).cons plain)
    exact Draw.always_bind _ (digits.always_upTo 4) fun _ plainDigits =>
      Draw.always_pure ((plainDirection.append plainDigits).cons plainMarker)
  exact Draw.always_pure
    ((((plainSign.append plainAlphabet.lead).append plainWhole).append plainFraction).append
      plainExponent)

-----------------------------------------------------------------------------------------
-- Pieces of a round
-----------------------------------------------------------------------------------------

/-- Every piece beside a number takes a byte at least, and five at most. -/
theorem length_piece
    : ∀ piece ∈ [' '] :: neighbours,
        0 < (Utf8.encode piece).length ∧ (Utf8.encode piece).length ≤ 5 := by
  decide +kernel

/-- A piece beside a number keeps to the limit, and takes no more bytes than the longest. -/
theorem length_neighbour_le (limit : Nat) (tape : List UInt8)
    : (neighbour limit tape).length ≤ min limit 5 := by
  have drawn := Draw.always_oneOf length_piece tape
  simp only [neighbour]
  split
  next fits => exact le_min fits drawn.2
  next => exact Nat.zero_le _

/-- A literal keeps to the limit, and takes no more bytes than the longest. -/
theorem length_literal_le (limit : Nat) (tape : List UInt8)
    : (literal limit tape).length ≤ min limit longestLiteral := by
  have plain := always_drawLiteral (tape.take literalBytes)
  rw [literal, List.length_take, plain.encode_eq, List.length_map]
  exact min_le_min_left limit plain.short

/-- The most that one round may append. -/
def longestRound : Nat := 5 + longestLiteral

theorem length_round_le (limit : Nat) (tape : List UInt8)
    : (round limit tape).length ≤ longestRound := by
  rw [round, List.length_append]
  exact Nat.add_le_add ((length_neighbour_le limit tape).trans (min_le_right limit 5))
    ((length_literal_le limit (tape.drop 1)).trans (min_le_right limit longestLiteral))

variable {limit : Nat} {tape : List UInt8}

/-- A tape for one round: the first byte chooses the neighbour, the others the literal. -/
theorem round_cons_append {first : UInt8} {bytes : List UInt8}
    (full : bytes.length = literalBytes)
    : round limit (first :: (bytes ++ tape)) = neighbour limit [first] ++ literal limit bytes := by
  have same : neighbour limit (first :: (bytes ++ tape)) = neighbour limit [first] := rfl
  rw [round, same, List.drop_one, List.tail_cons, literal, literal, List.take_left' full,
    List.take_of_length_le full.le]

/-- Bytes for the empty literal. -/
def emptyBytes : List UInt8 := 2 :: 2 :: List.replicate 62 0

/-- Bytes for one of the longest literals, a malformed one with all its parts. -/
def longestBytes : List UInt8 :=
  [0, 0, 24] ++ List.replicate 24 0 ++ [1, 12] ++ List.replicate 12 0 ++ [1, 0, 1, 0, 4]
    ++ List.replicate 18 0

theorem neighbour_blank (positive : 0 < limit) : neighbour limit [0] = [32] :=
  if_pos positive

theorem literal_emptyBytes (limit : Nat) : literal limit emptyBytes = [] := by
  have drawn : Utf8.encode (drawLiteral.run (emptyBytes.take literalBytes)).1 = [] := by
    decide +kernel
  rw [literal, drawn, List.take_nil]

/-- There is a round of one blank and nothing else. -/
theorem round_blank (positive : 0 < limit)
    : round limit (0 :: (emptyBytes ++ tape)) = [32] := by
  rw [round_cons_append (by decide), neighbour_blank positive, literal_emptyBytes,
    List.append_nil]

/-- There is a round of nothing at all, unless there is room for each of the pieces. -/
theorem exists_round_eq_nil_iff (limit : Nat)
    : (∃ tape, round limit tape = []) ↔ limit < 5 := by
  constructor
  · rintro ⟨tape, idle⟩
    have noneBeside : neighbour limit tape = [] := (List.append_eq_nil_iff.mp idle).1
    obtain ⟨someByte, short⟩ := Draw.always_oneOf length_piece tape
    by_contra roomy
    have fits : neighbour limit tape
        = Utf8.encode ((Draw.oneOf [' '] neighbours).run tape).1 :=
      if_pos (short.trans (Nat.le_of_not_lt roomy))
    rw [← fits, noneBeside] at someByte
    exact Nat.lt_irrefl 0 someByte
  · intro tight
    refine ⟨6 :: (emptyBytes ++ []), ?_⟩
    have leftOut : neighbour limit [6] = [] := if_neg (Nat.not_le_of_lt tight)
    rw [round_cons_append (by decide), leftOut, literal_emptyBytes, List.append_nil]

/-- Any limit below the length of the longest round is passed by some round: a blank and a
literal cut to the limit, or the longest round itself.
-/
theorem exists_round_outgrowing (limit : Nat) (positive : 0 < limit)
    (tight : limit < longestRound)
    : ∃ tape, limit < (round limit tape).length := by
  have drawn : (Utf8.encode (drawLiteral.run (longestBytes.take literalBytes)).1).length
      = longestLiteral := by
    decide +kernel
  have cut : (literal limit longestBytes).length = min limit longestLiteral := by
    rw [literal, List.length_take, drawn]
  have full : longestBytes.length = literalBytes := by decide
  by_cases small : limit ≤ longestLiteral
  · refine ⟨0 :: (longestBytes ++ []), ?_⟩
    rw [round_cons_append full, neighbour_blank positive, List.length_append, cut,
      min_eq_left small, List.length_singleton]
    exact Nat.lt_one_add_iff.mpr le_rfl
  · have long : 5 ≤ limit := (by decide : 5 ≤ longestLiteral).trans (not_le.mp small).le
    have named : (neighbour limit [6]).length = 5 := congrArg List.length (if_pos long)
    refine ⟨6 :: (longestBytes ++ []), ?_⟩
    rw [round_cons_append full, List.length_append, named, cut,
      min_eq_right (not_le.mp small).le]
    exact tight

end Numeral.Fuzz
