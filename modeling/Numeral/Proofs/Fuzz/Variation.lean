import Numeral.Proofs.Fuzz.Filling

/-! A sample that is varied never has more bytes in use than its buffer holds, if it is given
at all. It is not given where a round begins with room for each of its pieces and not for
both.
-/

namespace Numeral.Fuzz.Sample

variable {engine : Sample → Sample} {capacity seed : Nat} {sample : Sample}
  {tape : List UInt8}

/-- The sample with nothing in use but a new header. -/
def headed (sample : Sample) (tape : List UInt8) : Sample where
  buffer := header tape ++ sample.buffer.drop headerLength
  size := headerLength

/-- How many bytes are wanted of a sample made anew: as many as before, and one behind the
header at least.
-/
def target (sample : Sample) : Nat :=
  max sample.size (headerLength + 1)

theorem length_headed (room : headerLength ≤ sample.buffer.length) (tape : List UInt8)
    : (sample.headed tape).buffer.length = sample.buffer.length := by
  have length : (header tape).length = headerLength := rfl
  rw [headed, List.length_append, List.length_drop, length, Nat.add_sub_cancel' room]

/-- In a buffer that holds a header, a sample made anew is filled behind the header. -/
theorem makeAnew?_eq (room : headerLength ≤ sample.buffer.length)
    : sample.makeAnew? capacity tape
      = (sample.headed tape).fill? sample.target capacity (tape.drop headerBytes) := by
  have begun : { sample with size := 0 }.append? (header tape) = some (sample.headed tape) :=
    append?_eq_some_iff.mpr ⟨(Nat.zero_add headerLength).trans_le room, rfl⟩
  rw [makeAnew?, begun]
  rfl

/-- The seeds and sizes for which the sample is made anew, and not left to the engine. -/
def Renewed (seed : Nat) (sample : Sample) : Prop :=
  sample.size < headerLength ∨ seed % 10 = 0

theorem vary?_of_renewed (renewed : sample.Renewed seed)
    : sample.vary? engine capacity seed tape
      = (sample.makeAnew? capacity tape).map (Variation.mk · false) :=
  if_pos renewed

theorem vary?_of_not_renewed (delegated : ¬ sample.Renewed seed)
    : sample.vary? engine capacity seed tape = some ⟨engine sample, true⟩ :=
  if_neg delegated

theorem vary?_eq_none_iff (room : headerLength ≤ sample.buffer.length)
    : sample.vary? engine capacity seed tape = none ↔
      sample.Renewed seed
        ∧ ∃ reached rest,
          Fills sample.target capacity (sample.headed tape) (tape.drop headerBytes) reached rest
            ∧ reached.Overflows sample.target capacity rest := by
  rw [← fill?_eq_none_iff, ← makeAnew?_eq room]
  by_cases renewed : sample.Renewed seed
  · rw [vary?_of_renewed renewed, Option.map_eq_none_iff, and_iff_right renewed]
  · rw [vary?_of_not_renewed renewed]
    exact iff_of_false (Option.some_ne_none _) fun failed => renewed failed.1

/-- A sample made anew keeps to the buffer. -/
theorem size_of_makeAnew? {made : Sample} (room : headerLength ≤ sample.buffer.length)
    (given : sample.makeAnew? capacity tape = some made)
    : made.size ≤ sample.buffer.length := by
  rw [makeAnew?_eq room] at given
  obtain ⟨rest, fills, -⟩ := fill?_eq_some_iff.mp given
  have begins : (sample.headed tape).size ≤ (sample.headed tape).buffer.length :=
    (length_headed room tape).symm ▸ room
  exact (fills.size_le_length begins).trans_eq
    (fills.length_buffer.trans (length_headed room tape))

/-- Every tape makes a sample if no text is wanted, or there is room for the longest round. -/
theorem makeAnew?_isSome (room : headerLength ≤ sample.buffer.length)
    (roomy : capacity = headerLength
      ∨ sample.target + longestRound ≤ sample.buffer.length + 1)
    : (sample.makeAnew? capacity tape).isSome := by
  rw [makeAnew?_eq room]
  obtain bare | roomy := roomy
  · have finished : ¬ (sample.headed tape).Unfinished sample.target capacity :=
      fun unfinished => absurd unfinished.2 bare.not_gt
    exact Option.isSome_of_eq_some (fill?_of_finished finished)
  · rw [← Option.ne_none_iff_isSome, ne_eq, fill?_eq_none_iff]
    rintro ⟨reached, rest, fills, overflows⟩
    refine not_overflows ?_ overflows
    rwa [fills.length_buffer, length_headed room]

/-- Otherwise some tape makes none. -/
theorem exists_makeAnew?_eq_none (room : headerLength < capacity)
    (inside : sample.size ≤ capacity) (held : sample.buffer.length = capacity)
    (tight : capacity + 1 < sample.target + longestRound)
    : ∃ tape, sample.makeAnew? capacity tape = none := by
  have holds : headerLength ≤ sample.buffer.length := held ▸ room.le
  have length := (length_headed holds (List.replicate headerBytes 0)).trans held
  have short : headerLength < sample.target := le_max_right sample.size (headerLength + 1)
  have wanted : sample.target ≤ capacity := max_le inside room
  obtain ⟨tape, failed⟩ := exists_fill?_eq_none short wanted length tight
  -- The header is made of the first eight bytes, and the rounds of what is behind them.
  have sameHeader : header (List.replicate headerBytes 0 ++ tape)
      = header (List.replicate headerBytes 0) := rfl
  refine ⟨List.replicate headerBytes 0 ++ tape, ?_⟩
  rw [makeAnew?_eq holds, List.drop_left' List.length_replicate, headed, sameHeader]
  exact failed

/-- A sample that is varied keeps to the buffer if the engine does. -/
theorem size_of_vary? {variation : Variation} (room : headerLength ≤ capacity)
    (held : sample.buffer.length = capacity) (engineInside : (engine sample).size ≤ capacity)
    (given : sample.vary? engine capacity seed tape = some variation)
    : variation.sample.size ≤ capacity := by
  by_cases renewed : sample.Renewed seed
  · rw [vary?_of_renewed renewed, Option.map_eq_some_iff] at given
    obtain ⟨made, given, rfl⟩ := given
    exact (size_of_makeAnew? (held.symm ▸ room) given).trans_eq held
  · rw [vary?_of_not_renewed renewed, Option.some.injEq] at given
    exact given ▸ engineInside

theorem forall_vary?_isSome_iff (room : headerLength ≤ capacity)
    (inside : sample.size ≤ capacity) (held : sample.buffer.length = capacity)
    : (∀ tape, (sample.vary? engine capacity seed tape).isSome) ↔
      (sample.Renewed seed →
        capacity = headerLength ∨ sample.target + longestRound ≤ capacity + 1) := by
  constructor
  · intro given renewed
    by_contra neither
    obtain ⟨notBare, tight⟩ := not_or.mp neither
    obtain ⟨tape, failed⟩ := exists_makeAnew?_eq_none
      (Nat.lt_of_le_of_ne room (Ne.symm notBare)) inside held (not_le.mp tight)
    have isSome := given tape
    rw [vary?_of_renewed renewed, failed] at isSome
    contradiction
  · intro roomy tape
    by_cases renewed : sample.Renewed seed
    · rw [vary?_of_renewed renewed, Option.isSome_map]
      exact makeAnew?_isSome (held.symm ▸ room) (held.symm ▸ roomy renewed)
    · rw [vary?_of_not_renewed renewed, Option.isSome_some]

/-- What is varied keeps to the buffer, and it is not given exactly where a round appends
more than the room that both of its pieces have been cut to.
-/
structure VariesWithin (engine : Sample → Sample) (capacity seed : Nat) (sample : Sample)
    : Prop where
  /-- The first piece fits the room of its round. -/
  neighbour_fits : ∀ limit tape, (neighbour limit tape).length ≤ limit
  /-- The second fits the same room, as if nothing had been appended before it. -/
  literal_fits : ∀ limit tape, (literal limit tape).length ≤ limit
  inside : ∀ tape variation, sample.vary? engine capacity seed tape = some variation →
    variation.sample.size ≤ capacity
  fails_iff : ∀ tape, sample.vary? engine capacity seed tape = none ↔
    sample.Renewed seed
      ∧ ∃ reached rest,
        Fills sample.target capacity (sample.headed tape) (tape.drop headerBytes) reached rest
          ∧ reached.Overflows sample.target capacity rest
  /-- No tape makes it fail if no text is wanted, or the longest round may begin one byte
  before what is wanted.
  -/
  never_fails_iff : (∀ tape, (sample.vary? engine capacity seed tape).isSome) ↔
    (sample.Renewed seed →
      capacity = headerLength ∨ sample.target + longestRound ≤ capacity + 1)

/-- Varying a sample keeps to its buffer and fails only for a round that outgrows it, if the
buffer holds a header and the sample, and the engine keeps to it.
-/
theorem varies_within (room : headerLength ≤ capacity) (inside : sample.size ≤ capacity)
    (held : sample.buffer.length = capacity) (engineInside : (engine sample).size ≤ capacity)
    : VariesWithin engine capacity seed sample where
  neighbour_fits limit tape := (length_neighbour_le limit tape).trans (min_le_left limit 5)
  literal_fits limit tape :=
    (length_literal_le limit tape).trans (min_le_left limit longestLiteral)
  inside _ _ given := size_of_vary? room held engineInside given
  fails_iff _ := vary?_eq_none_iff (held.symm ▸ room)
  never_fails_iff := forall_vary?_isSome_iff room inside held

theorem varies_within_full_buffer
    : VariesWithin id 6 10 (.ofBytes [0, 0, 0, 0, 0, 0x31] 6) :=
  varies_within (by decide) (by decide) (by decide) (by decide)

/-- Six bytes are to be made anew in a buffer of six. Behind the header a blank takes the last
byte, and the literal is cut to the same one byte and not to none.
-/
theorem variation_not_always_given
    : ¬ ∀ (engine : Sample → Sample) (capacity seed : Nat) (sample : Sample) (tape : List UInt8),
      headerLength ≤ capacity → sample.size ≤ capacity → sample.buffer.length = capacity →
      (engine sample).size ≤ capacity →
      ∃ variation, sample.vary? engine capacity seed tape = some variation
        ∧ variation.sample.size ≤ capacity := by
  intro always
  obtain ⟨variation, given, -⟩ := always id 6 10 (.ofBytes [0, 0, 0, 0, 0, 0x31] 6) []
    (by decide) (by decide) (by decide) (by decide)
  have failed : Sample.vary? id 6 10 (.ofBytes [0, 0, 0, 0, 0, 0x31] 6) [] = none := by
    decide +kernel
  exact absurd (given.symm.trans failed) (Option.some_ne_none variation)

end Numeral.Fuzz.Sample
