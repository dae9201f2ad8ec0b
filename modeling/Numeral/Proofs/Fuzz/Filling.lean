import Numeral.Proofs.Fuzz.Draws

/-! How a sample is filled, round by round. A filling ends with a sample that is full or at
a round whose pieces pass the end of the buffer, and it is known when the second can happen.
-/

namespace Numeral.Fuzz.Sample

variable {wanted capacity : Nat} {sample reached next : Sample} {tape rest : List UInt8}

/-- The sample has room for the piece that is appended, and what is behind it stays. -/
theorem append?_eq_some_iff {piece : List UInt8}
    : sample.append? piece = some next ↔
      sample.size + piece.length ≤ sample.buffer.length
      ∧ next =
        { buffer :=
            sample.buffer.take sample.size ++ piece
              ++ sample.buffer.drop (sample.size + piece.length)
          size := sample.size + piece.length } := by
  rw [append?, Option.ite_none_right_eq_some, Option.some.injEq, eq_comm]

theorem append?_eq_none_iff {piece : List UInt8}
    : sample.append? piece = none ↔
      sample.buffer.length < sample.size + piece.length := by
  rw [append?, ite_eq_right_iff, ← Nat.not_le]
  simp only [reduceCtorEq, imp_false]

/-- Appending overwrites bytes of the buffer and never adds any. -/
theorem length_buffer_of_append? {piece : List UInt8}
    (appended : sample.append? piece = some next)
    : next.buffer.length = sample.buffer.length := by
  obtain ⟨room, rfl⟩ := append?_eq_some_iff.mp appended
  simp only [List.length_append, List.length_take, List.length_drop]
  omega

/-- Bytes are wanted, and there is room for one at least. -/
def Unfinished (wanted capacity : Nat) (sample : Sample) : Prop :=
  sample.size < wanted ∧ sample.size < capacity

/-- The bytes that the next round appends. -/
def upcoming (capacity : Nat) (sample : Sample) (tape : List UInt8) : List UInt8 :=
  round (capacity - sample.size) tape

/-- What filling makes of a sample, and what it leaves of the tape, after some rounds. -/
inductive Fills (wanted capacity : Nat) (sample : Sample) (tape : List UInt8)
    : Sample → List UInt8 → Prop
  | none : Fills wanted capacity sample tape sample tape
  | round {reached next : Sample} {rest : List UInt8}
      (before : Fills wanted capacity sample tape reached rest)
      (unfinished : reached.Unfinished wanted capacity)
      (appended : reached.append? (reached.upcoming capacity rest) = some next)
      : Fills wanted capacity sample tape next (rest.drop (1 + literalBytes))

/-- The next round fails: its pieces pass the end of the buffer. -/
structure Overflows (wanted capacity : Nat) (sample : Sample) (tape : List UInt8) : Prop where
  unfinished : sample.Unfinished wanted capacity
  outgrown : sample.buffer.length < sample.size + (sample.upcoming capacity tape).length

-----------------------------------------------------------------------------------------
-- One round
-----------------------------------------------------------------------------------------

theorem fill?_of_finished (finished : ¬ sample.Unfinished wanted capacity)
    : sample.fill? wanted capacity tape = some sample := by
  rw [fill?]
  exact if_neg finished

theorem fill?_of_round (unfinished : sample.Unfinished wanted capacity)
    (appended : sample.append? (sample.upcoming capacity tape) = some next)
    : sample.fill? wanted capacity tape
      = next.fill? wanted capacity (tape.drop (1 + literalBytes)) := by
  rw [fill?, if_pos (c := _ ∧ _) unfinished]
  split
  next failed => exact absurd (appended.symm.trans failed) (Option.some_ne_none next)
  next other same => rw [Option.some.inj (same.symm.trans appended)]

theorem Overflows.fill?_eq_none (overflows : sample.Overflows wanted capacity tape)
    : sample.fill? wanted capacity tape = none := by
  rw [fill?, if_pos (c := _ ∧ _) overflows.unfinished]
  split
  next => rfl
  next other appended =>
    exact absurd (appended.symm.trans (append?_eq_none_iff.mpr overflows.outgrown))
      (Option.some_ne_none other)

-----------------------------------------------------------------------------------------
-- A whole filling
-----------------------------------------------------------------------------------------

namespace Fills

variable {final : Sample} {left : List UInt8}

/-- Some rounds after a first one are rounds of the whole filling. -/
theorem after_round (unfinished : sample.Unfinished wanted capacity)
    (appended : sample.append? (sample.upcoming capacity tape) = some next)
    (fills : Fills wanted capacity next (tape.drop (1 + literalBytes)) final left)
    : Fills wanted capacity sample tape final left := by
  induction fills with
  | none => exact .round .none unfinished appended
  | round _ still later ih => exact .round ih still later

/-- What the filling comes to is decided by the rounds that are left. -/
theorem fill?_eq (fills : Fills wanted capacity sample tape reached rest)
    : sample.fill? wanted capacity tape = reached.fill? wanted capacity rest := by
  induction fills with
  | none => rfl
  | round _ unfinished appended ih => exact ih.trans (fill?_of_round unfinished appended)

theorem length_buffer (fills : Fills wanted capacity sample tape reached rest)
    : reached.buffer.length = sample.buffer.length := by
  induction fills with
  | none => rfl
  | round _ _ appended ih => exact (length_buffer_of_append? appended).trans ih

theorem size_le_length (fills : Fills wanted capacity sample tape reached rest)
    (inside : sample.size ≤ sample.buffer.length)
    : reached.size ≤ reached.buffer.length := by
  cases fills with
  | none => exact inside
  | round _ _ appended =>
      rw [length_buffer_of_append? appended, size_of_append? appended]
      exact (append?_eq_some_iff.mp appended).1

end Fills

/-- Every filling comes to its end: the sample is finished or its next round fails. -/
theorem exists_fills_to_end (wanted capacity : Nat) (sample : Sample) (tape : List UInt8)
    : ∃ reached rest, Fills wanted capacity sample tape reached rest
      ∧ (¬ reached.Unfinished wanted capacity ∨ reached.Overflows wanted capacity rest) := by
  induction sample, tape using fill?.induct wanted capacity with
  | case1 sample tape unfinished outgrown =>
      exact ⟨sample, tape, .none, .inr ⟨unfinished, append?_eq_none_iff.mp outgrown⟩⟩
  | case2 sample tape unfinished next appended ih =>
      obtain ⟨reached, rest, fills, ended⟩ := ih
      exact ⟨reached, rest, fills.after_round unfinished appended, ended⟩
  | case3 sample tape finished =>
      exact ⟨sample, tape, .none, .inl finished⟩

theorem fill?_eq_some_iff {final : Sample}
    : sample.fill? wanted capacity tape = some final ↔
      ∃ rest, Fills wanted capacity sample tape final rest
        ∧ ¬ final.Unfinished wanted capacity := by
  constructor
  · intro filled
    obtain ⟨reached, rest, fills, finished | overflows⟩ :=
      exists_fills_to_end wanted capacity sample tape
    · rw [fills.fill?_eq, fill?_of_finished finished, Option.some.injEq] at filled
      exact filled ▸ ⟨rest, fills, finished⟩
    · rw [fills.fill?_eq, overflows.fill?_eq_none] at filled
      contradiction
  · rintro ⟨rest, fills, finished⟩
    exact fills.fill?_eq.trans (fill?_of_finished finished)

theorem fill?_eq_none_iff
    : sample.fill? wanted capacity tape = none ↔
      ∃ reached rest, Fills wanted capacity sample tape reached rest
        ∧ reached.Overflows wanted capacity rest := by
  constructor
  · intro failed
    obtain ⟨reached, rest, fills, finished | overflows⟩ :=
      exists_fills_to_end wanted capacity sample tape
    · rw [fills.fill?_eq, fill?_of_finished finished] at failed
      contradiction
    · exact ⟨reached, rest, fills, overflows⟩
  · rintro ⟨reached, rest, fills, overflows⟩
    exact fills.fill?_eq.trans overflows.fill?_eq_none

-----------------------------------------------------------------------------------------
-- When a filling can fail
-----------------------------------------------------------------------------------------

/-- With room for the longest round behind the last byte but one that is wanted, no round
fails.
-/
theorem not_overflows (roomy : wanted + longestRound ≤ sample.buffer.length + 1)
    : ¬ sample.Overflows wanted capacity tape := by
  rintro ⟨⟨short, -⟩, outgrown⟩
  have longest := length_round_le (capacity - sample.size) tape
  simp only [upcoming] at outgrown
  omega

/-- Blanks alone take a sample to any size below what is wanted. -/
theorem exists_fills_blanks (room : wanted ≤ capacity) (held : capacity ≤ sample.buffer.length)
    (n : Nat) (below : sample.size + n < wanted) (rest : List UInt8)
    : ∃ tape reached, Fills wanted capacity sample tape reached rest
      ∧ reached.size = sample.size + n := by
  induction n generalizing rest with
  | zero => exact ⟨rest, sample, .none, rfl⟩
  | succ n ih =>
      obtain ⟨tape, reached, fills, size⟩ :=
        ih (by omega) (0 :: (emptyBytes ++ rest))
      have unfinished : reached.Unfinished wanted capacity := ⟨by omega, by omega⟩
      have blank : reached.upcoming capacity (0 :: (emptyBytes ++ rest)) = [32] :=
        round_blank (Nat.sub_pos_of_lt unfinished.2)
      obtain ⟨next, appended⟩ :
          ∃ next, reached.append? (reached.upcoming capacity (0 :: (emptyBytes ++ rest)))
            = some next := by
        refine ⟨_, append?_eq_some_iff.mpr ⟨?_, rfl⟩⟩
        rw [blank, fills.length_buffer, List.length_singleton]
        omega
      refine ⟨tape, next, .round fills unfinished appended, ?_⟩
      rw [size_of_append? appended, blank, size, List.length_singleton, Nat.add_assoc]

/-- Without that room there is a tape for which the filling fails. -/
theorem exists_fill?_eq_none (short : sample.size < wanted) (inside : wanted ≤ capacity)
    (held : sample.buffer.length = capacity) (tight : capacity + 1 < wanted + longestRound)
    : ∃ tape, sample.fill? wanted capacity tape = none := by
  obtain ⟨rest, outgrown⟩ := exists_round_outgrowing (capacity + 1 - wanted)
    (by omega) (by omega)
  obtain ⟨tape, reached, fills, size⟩ := exists_fills_blanks inside held.ge
    (wanted - 1 - sample.size) (by omega) rest
  have last : capacity - reached.size = capacity + 1 - wanted := by omega
  refine ⟨tape, fill?_eq_none_iff.mpr ⟨reached, rest, fills, ⟨by omega, by omega⟩, ?_⟩⟩
  rw [fills.length_buffer, held, upcoming, last]
  omega

end Numeral.Fuzz.Sample
