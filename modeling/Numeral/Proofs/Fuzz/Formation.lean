import Numeral.Proofs.Fuzz.Variation
import Numeral.Proofs.Text.Decoding

/-! How a sample that is made anew is formed. Its rounds come to an end, though one of them
may append nothing, and what they have written is text of known pieces. Nothing behind it is
touched.
-/

namespace Numeral.Fuzz

-----------------------------------------------------------------------------------------
-- The text of rounds
-----------------------------------------------------------------------------------------

/-- The text of one round: what stands beside a number, and the beginning of a literal. -/
structure Passage where
  piece : List Char
  word : List Char
deriving DecidableEq

namespace Passage

def text (passage : Passage) : List Char :=
  passage.piece ++ passage.word

/-- The passage that is read off a tape where `limit` bytes are left. -/
def draw (limit : Nat) (tape : List UInt8) : Passage where
  piece :=
    let piece := ((Draw.oneOf [' '] neighbours).run tape).1
    if (Utf8.encode piece).length ≤ limit then piece else []
  word := (drawLiteral.run ((tape.drop 1).take literalBytes)).1.take limit

end Passage

/-- The bytes of passages one after the other. -/
def written (passages : List Passage) : List UInt8 :=
  Utf8.encode (passages.flatMap Passage.text)

/-- What may stand beside a number in `room` bytes: a whole piece, or nothing in place of one
that takes more.
-/
inductive StandsBeside (room : Nat) : List Char → Prop
  | whole {piece : List Char} (known : piece ∈ [' '] :: neighbours)
    (fits : (Utf8.encode piece).length ≤ room)
    : StandsBeside room piece
  | leftOut {piece : List Char} (known : piece ∈ [' '] :: neighbours)
    (outgrown : room < (Utf8.encode piece).length)
    : StandsBeside room []

/-- A literal that some tape gives, cut to `room` characters of one byte each. -/
structure BeginsLiteral (room : Nat) (word : List Char) : Prop where
  cut : ∃ tape, tape.length ≤ literalBytes ∧ word = (drawLiteral.run tape).1.take room
  ascii : ∀ char ∈ word, char.toNat < 128

/-- Passages one after the other in `room` bytes, each begun before they are full. Both parts
of a passage keep to what is left where it begins.
-/
inductive Interspersed (room : Nat) : List Passage → Prop
  | nil : Interspersed room []
  | next {passages : List Passage} {passage : Passage} (before : Interspersed room passages)
    (unfilled : (written passages).length < room)
    (beside : StandsBeside (room - (written passages).length) passage.piece)
    (begins : BeginsLiteral (room - (written passages).length) passage.word)
    : Interspersed room (passages ++ [passage])

theorem written_append (passages more : List Passage)
    : written (passages ++ more) = written passages ++ written more := by
  rw [written, List.flatMap_append, Utf8.encode_append]
  rfl

theorem written_singleton (passage : Passage)
    : written [passage] = Utf8.encode passage.text := by
  rw [written, List.flatMap_singleton]

variable {limit : Nat} {tape : List UInt8}

theorem Plain.take {most : Nat} {text : List Char} (plain : Plain most text) (count : Nat)
    : Plain most (text.take count) where
  short := (List.length_take_le' count text).trans plain.short
  ascii char present := plain.ascii char (List.mem_of_mem_take present)

theorem standsBeside_draw (limit : Nat) (tape : List UInt8)
    : StandsBeside limit (Passage.draw limit tape).piece := by
  have known : ((Draw.oneOf [' '] neighbours).run tape).1 ∈ [' '] :: neighbours :=
    Draw.always_oneOf (fun _ present => present) tape
  simp only [Passage.draw]
  split
  next fits => exact .whole known fits
  next outgrown => exact .leftOut known (Nat.lt_of_not_le outgrown)

theorem beginsLiteral_draw (limit : Nat) (tape : List UInt8)
    : BeginsLiteral limit (Passage.draw limit tape).word where
  cut := ⟨_, List.length_take_le _ _, rfl⟩
  ascii := ((always_drawLiteral _).take limit).ascii

/-- In plain text, a cut of the bytes is a cut of the characters. -/
theorem Plain.encode_take {most : Nat} {text : List Char} (plain : Plain most text)
    (count : Nat)
    : Utf8.encode (text.take count) = (Utf8.encode text).take count := by
  rw [(plain.take count).encode_eq, plain.encode_eq, List.map_take]

/-- The passage of a round is what the round appends. -/
theorem encode_draw (limit : Nat) (tape : List UInt8)
    : Utf8.encode (Passage.draw limit tape).text = round limit tape := by
  have beside : Utf8.encode (Passage.draw limit tape).piece = neighbour limit tape :=
    apply_ite Utf8.encode _ _ _
  have begins : Utf8.encode (Passage.draw limit tape).word = literal limit (tape.drop 1) :=
    (always_drawLiteral _).encode_take limit
  rw [Passage.text, Utf8.encode_append, beside, begins, round]

namespace Sample

variable {engine : Sample → Sample} {wanted capacity seed : Nat} {sample reached next : Sample}
  {tape rest : List UInt8} {passages : List Passage}

-----------------------------------------------------------------------------------------
-- What appending leaves as it is
-----------------------------------------------------------------------------------------

/-- The piece has been written behind the bytes in use, and nothing anywhere else. -/
structure Writes (sample : Sample) (piece : List UInt8) (next : Sample) : Prop where
  bytes : next.bytes = sample.bytes ++ piece
  size : next.size = sample.size + piece.length
  length : next.buffer.length = sample.buffer.length
  behind : next.buffer.drop next.size = sample.buffer.drop next.size

theorem Writes.nothing (sample : Sample) : sample.Writes [] sample :=
  ⟨(List.append_nil _).symm, rfl, rfl, rfl⟩

theorem Writes.append {piece more : List UInt8} (writes : sample.Writes piece reached)
    (later : reached.Writes more next)
    : sample.Writes (piece ++ more) next where
  bytes := by rw [later.bytes, writes.bytes, List.append_assoc]
  size := by rw [later.size, writes.size, List.length_append, Nat.add_assoc]
  length := later.length.trans writes.length
  behind := by
    rw [later.behind, later.size, ← List.drop_drop, writes.behind, List.drop_drop]

theorem writes_of_append? {piece : List UInt8} (appended : sample.append? piece = some next)
    : sample.Writes piece next := by
  obtain ⟨room, rfl⟩ := append?_eq_some_iff.mp appended
  have inUse : (sample.buffer.take sample.size).length = sample.size :=
    List.length_take_of_le ((Nat.le_add_right _ _).trans room)
  have all : (sample.buffer.take sample.size ++ piece).length = sample.size + piece.length := by
    rw [List.length_append, inUse]
  exact {
    bytes := List.take_left' all
    size := rfl
    length := length_buffer_of_append? appended
    behind := List.drop_left' all
  }

-----------------------------------------------------------------------------------------
-- Fillings with their passages
-----------------------------------------------------------------------------------------

/-- A filling, with the passage that each of its rounds appends. -/
inductive FillsWith (wanted capacity : Nat) (sample : Sample) (tape : List UInt8)
    : List Passage → Sample → List UInt8 → Prop
  | none : FillsWith wanted capacity sample tape [] sample tape
  | round {passages : List Passage} {reached next : Sample} {rest : List UInt8}
    (before : FillsWith wanted capacity sample tape passages reached rest)
    (unfinished : reached.Unfinished wanted capacity)
    (appended : reached.append? (reached.upcoming capacity rest) = some next)
    : FillsWith wanted capacity sample tape
        (passages ++ [Passage.draw (capacity - reached.size) rest]) next
        (rest.drop (1 + literalBytes))

theorem Fills.exists_passages (fills : Fills wanted capacity sample tape reached rest)
    : ∃ passages, FillsWith wanted capacity sample tape passages reached rest := by
  induction fills with
  | none => exact ⟨[], .none⟩
  | round _ unfinished appended ih =>
      obtain ⟨passages, before⟩ := ih
      exact ⟨_, .round before unfinished appended⟩

theorem FillsWith.fills (fills : FillsWith wanted capacity sample tape passages reached rest)
    : Fills wanted capacity sample tape reached rest := by
  induction fills with
  | none => exact .none
  | round _ unfinished appended ih => exact .round ih unfinished appended

/-- Filling writes its passages. -/
theorem FillsWith.writes
    (fills : FillsWith wanted capacity sample tape passages reached rest)
    : sample.Writes (written passages) reached := by
  induction fills with
  | none => exact .nothing sample
  | round _ _ appended ih =>
      have piece := writes_of_append? appended
      rw [upcoming, ← encode_draw, ← written_singleton] at piece
      rw [written_append]
      exact ih.append piece

/-- The passages of a filling keep to the room behind the bytes that were in use. -/
theorem FillsWith.interspersed
    (fills : FillsWith wanted capacity sample tape passages reached rest)
    : Interspersed (capacity - sample.size) passages := by
  induction fills with
  | none => exact .nil
  | @round passages reached next rest before unfinished _ ih =>
      have left : capacity - reached.size
          = capacity - sample.size - (written passages).length := by
        rw [before.writes.size, Nat.sub_add_eq]
      have positive : 0 < capacity - reached.size := Nat.sub_pos_of_lt unfinished.2
      rw [left] at positive ⊢
      exact .next ih (Nat.lt_of_sub_pos positive) (standsBeside_draw _ rest)
        (beginsLiteral_draw _ rest)

-----------------------------------------------------------------------------------------
-- The end of a filling
-----------------------------------------------------------------------------------------

/-- How many rounds there can be at most: those that read the tape, and one for each byte that
is wanted when the tape has run out.
-/
def roundsLeft (wanted capacity : Nat) (sample : Sample) (tape : List UInt8) : Nat :=
  (tape.length + literalBytes) / (1 + literalBytes) + (min wanted capacity - sample.size)

/-- A round takes from the tape, or, if nothing is left of it, adds to the sample. -/
theorem roundsLeft_of_round (unfinished : sample.Unfinished wanted capacity)
    (appended : sample.append? (sample.upcoming capacity tape) = some next)
    : next.roundsLeft wanted capacity (tape.drop (1 + literalBytes))
      < sample.roundsLeft wanted capacity tape := by
  obtain ⟨short, inside⟩ := unfinished
  have size := size_of_append? appended
  simp only [roundsLeft, literalBytes, List.length_drop]
  cases tape with
  | nil =>
      have progress : 0 < (sample.upcoming capacity []).length :=
        length_round_nil_pos (Nat.sub_pos_of_lt inside)
      simp only [List.length_nil]
      omega
  | cons byte tape =>
      simp only [List.length_cons]
      omega

theorem FillsWith.length_passages_le
    (fills : FillsWith wanted capacity sample tape passages reached rest)
    : passages.length + reached.roundsLeft wanted capacity rest
      ≤ sample.roundsLeft wanted capacity tape := by
  induction fills with
  | none => exact (Nat.zero_add _).le
  | round _ unfinished appended ih =>
      have fewer := roundsLeft_of_round unfinished appended
      rw [List.length_append, List.length_singleton]
      omega

-----------------------------------------------------------------------------------------
-- A sample made anew
-----------------------------------------------------------------------------------------

/-- The sample has been made anew of its former buffer: a header with flags and a place below
eight, passages behind it as far as `capacity` and the former size ask, and the buffer as it
was behind those.
-/
structure MadeAnew (capacity : Nat) (former made : Sample) : Prop where
  headed : headerLength ≤ made.size
  inside : made.size ≤ made.buffer.length
  enough : min former.target capacity ≤ made.size
  length : made.buffer.length = former.buffer.length
  behind : made.buffer.drop made.size = former.buffer.drop made.size
  formed
    : ∃ flags a b c d passages,
        made.bytes = flags :: a :: b :: c :: d :: written passages
        ∧ flags.toNat < 8
        ∧ a.toNat + 0x100 * (b.toNat + 0x100 * (c.toNat + 0x100 * d.toNat)) < 8
        ∧ Interspersed (capacity - headerLength) passages

theorem writes_headed (room : headerLength ≤ sample.buffer.length) (tape : List UInt8)
    : { sample with size := 0 }.Writes (header tape) (sample.headed tape) :=
  writes_of_append? (append?_eq_some_iff.mpr ⟨(Nat.zero_add headerLength).trans_le room, rfl⟩)

theorem FillsWith.madeAnew (room : headerLength ≤ sample.buffer.length)
    (fills : FillsWith sample.target capacity (sample.headed tape) (tape.drop headerBytes)
      passages reached rest)
    (finished : ¬ reached.Unfinished sample.target capacity)
    : MadeAnew capacity sample reached := by
  have writes := (writes_headed room tape).append fills.writes
  have size : reached.size = headerLength + (written passages).length := fills.writes.size
  have begins : (sample.headed tape).size ≤ (sample.headed tape).buffer.length :=
    (length_headed room tape).symm ▸ room
  have small : ∀ byte : UInt8, (byte % 8).toNat < 8 := by
    intro byte
    rw [UInt8.toNat_mod]
    exact Nat.mod_lt _ (Nat.succ_pos 7)
  exact {
    headed := size.symm ▸ Nat.le_add_right _ _
    inside := fills.fills.size_le_length begins
    enough := by
      by_contra short
      exact finished (lt_min_iff.mp (Nat.lt_of_not_le short))
    length := writes.length
    behind := writes.behind
    formed := ⟨tape.getD 0 0 % 8, tape.getD 4 0 % 8, 0, 0, 0, passages, writes.bytes,
      small _, small _, fills.interspersed⟩
  }

/-- How making a sample anew comes to its end, and what it then has made. -/
structure Renews (engine : Sample → Sample) (capacity seed : Nat) (sample : Sample)
    (tape : List UInt8)
    : Prop where
  /-- There are rounds that append nothing. -/
  idle_iff : ∀ limit, (∃ rest, round limit rest = []) ↔ limit < 5
  /-- Even so there are only so many rounds, and then the sample is finished or the next round
  passes the end of the buffer.
  -/
  ends
    : ∃ passages reached rest,
        FillsWith sample.target capacity (sample.headed tape) (tape.drop headerBytes)
          passages reached rest
        ∧ passages.length
          ≤ (sample.headed tape).roundsLeft sample.target capacity (tape.drop headerBytes)
        ∧ ((¬ reached.Unfinished sample.target capacity
              ∧ sample.vary? engine capacity seed tape = some ⟨reached, false⟩)
            ∨ (reached.Overflows sample.target capacity rest
              ∧ sample.vary? engine capacity seed tape = none))
  made
    : ∀ variation,
        sample.vary? engine capacity seed tape = some variation
        → variation.delegated = false ∧ MadeAnew capacity sample variation.sample

/-- Making a sample anew comes to an end on every tape, and what it gives, if it does not fail,
is a header with text of known pieces behind it.
-/
theorem renewed_well_formed (room : headerLength ≤ sample.buffer.length)
    (renewed : sample.Renewed seed)
    : Renews engine capacity seed sample tape := by
  have varied : sample.vary? engine capacity seed tape
      = ((sample.headed tape).fill? sample.target capacity (tape.drop headerBytes)).map
          (Variation.mk · false) := by
    rw [vary?_of_renewed renewed, makeAnew?_eq room]
  refine ⟨exists_round_eq_nil_iff, ?_, ?_⟩
  · obtain ⟨reached, rest, fills, ended⟩ := exists_fills_to_end sample.target capacity
      (sample.headed tape) (tape.drop headerBytes)
    obtain ⟨passages, fillsWith⟩ := fills.exists_passages
    refine ⟨passages, reached, rest, fillsWith,
      (Nat.le_add_right _ _).trans fillsWith.length_passages_le, ?_⟩
    rw [varied, fills.fill?_eq]
    obtain finished | overflows := ended
    · exact .inl ⟨finished, congrArg _ (fill?_of_finished finished)⟩
    · exact .inr ⟨overflows, congrArg _ overflows.fill?_eq_none⟩
  · intro variation given
    rw [varied, Option.map_eq_some_iff] at given
    obtain ⟨made, filled, rfl⟩ := given
    obtain ⟨rest, fills, finished⟩ := fill?_eq_some_iff.mp filled
    obtain ⟨passages, fillsWith⟩ := fills.exists_passages
    exact ⟨rfl, fillsWith.madeAnew room finished⟩

/-- Four bytes are left behind the header. The first round draws a piece of five and the empty
literal, so it appends nothing, and the next one fills the buffer.
-/
theorem renewed_well_formed_idle_round
    : Renews id 9 1 (.ofBytes [0x31, 0x32] 9) ([15, 0, 0, 0, 12, 0, 0, 0, 6] ++ emptyBytes)
      ∧ (Sample.vary? id 9 1 (.ofBytes [0x31, 0x32] 9)
          ([15, 0, 0, 0, 12, 0, 0, 0, 6] ++ emptyBytes)).isSome :=
  ⟨renewed_well_formed (by decide) (.inl (by decide)), by decide +kernel⟩

end Sample

end Numeral.Fuzz
