import Mathlib.Data.List.Infix
import Numeral.Text.Utf8

/-! The sequences under way are those that begin the form of some character: a byte in the
range of the next one goes on with such a beginning, and the bytes that complete a sequence
make it the form of the character that is read.
-/

namespace Numeral.Utf8

variable {byte lead : UInt8} {bytes beginning : List UInt8} {char : Char} {sequence : Pending}

namespace Pending

/-- The byte is in the range of the next one. -/
def Takes (sequence : Pending) (byte : UInt8) : Prop :=
  sequence.low ≤ byte ∧ byte ≤ sequence.high

/-- The bits read so far with those of `byte` behind them. -/
def bitsWith (sequence : Pending) (byte : UInt8) : Nat :=
  sequence.bits * 0x40 + byte.toNat % 0x40

/-- The sequence after one more byte, if that is not the last one. -/
def push (sequence : Pending) (byte : UInt8) : Pending :=
  ⟨sequence.bitsWith byte, sequence.missing - 1, 0x80, 0xBF⟩

end Pending

/-- The byte begins a sequence of two, three or four. -/
inductive Opens : UInt8 → Pending → Prop
  | two {lead : UInt8} (least : 0xC2 ≤ lead.toNat) (most : lead.toNat ≤ 0xDF)
    : Opens lead
        { bits := lead.toNat % 0x20
          missing := 1
          low := 0x80
          high := 0xBF }
  | three {lead : UInt8} (least : 0xE0 ≤ lead.toNat) (most : lead.toNat ≤ 0xEF)
    : Opens lead
        { bits := lead.toNat % 0x10
          missing := 2
          low := if lead.toNat = 0xE0 then 0xA0 else 0x80
          high := if lead.toNat = 0xED then 0x9F else 0xBF }
  | four {lead : UInt8} (least : 0xF0 ≤ lead.toNat) (most : lead.toNat ≤ 0xF4)
    : Opens lead
        { bits := lead.toNat % 0x08
          missing := 3
          low := if lead.toNat = 0xF0 then 0x90 else 0x80
          high := if lead.toNat = 0xF4 then 0x8F else 0xBF }

/-- The bytes are all that is missing of the sequence, which is then read as `char`. -/
inductive Completes : Pending → List UInt8 → Char → Prop
  | last {sequence : Pending} {byte : UInt8} (one : sequence.missing = 1)
    (next : sequence.Takes byte)
    : Completes sequence [byte] (Char.ofNat (sequence.bitsWith byte))
  | more {sequence : Pending} {byte : UInt8} {bytes : List UInt8} {char : Char}
    (several : sequence.missing ≠ 1) (next : sequence.Takes byte)
    (rest : Completes (sequence.push byte) bytes char)
    : Completes sequence (byte :: bytes) char

/-- Reading the bytes from the beginning of a sequence leads to `sequence`. -/
inductive LeadsTo : List UInt8 → Pending → Prop
  | lead {lead : UInt8} {sequence : Pending} (opens : Opens lead sequence)
    : LeadsTo [lead] sequence
  | next {bytes : List UInt8} {byte : UInt8} {sequence : Pending}
    (before : LeadsTo bytes sequence) (several : sequence.missing ≠ 1)
    (takes : sequence.Takes byte)
    : LeadsTo (bytes ++ [byte]) (sequence.push byte)

-----------------------------------------------------------------------------------------
-- One byte
-----------------------------------------------------------------------------------------

theorem start_of_opens (opens : Opens lead sequence) : start lead = ([], some sequence) := by
  simp only [start, UInt8.lt_iff_toNat_lt, ← UInt8.toNat_inj, UInt8.reduceToNat]
  cases opens with
  | two least most =>
      rw [if_neg (by omega), if_neg (by omega), if_pos (by omega)]
  | three least most =>
      rw [if_neg (by omega), if_neg (by omega), if_neg (by omega)]
      repeat' split
      all_goals first | rfl | omega
  | four least most =>
      rw [if_neg (by omega), if_neg (by omega), if_neg (by omega)]
      repeat' split
      all_goals first | rfl | omega

/-- A byte that begins no sequence is a character of its own or none at all. -/
theorem start_of_not_opens (shut : ∀ sequence, ¬ Opens byte sequence)
    : start byte
      = ([if byte.toNat < 0x80 then Char.ofNat byte.toNat else replacement], none) := by
  have two : ¬ (0xC2 ≤ byte.toNat ∧ byte.toNat ≤ 0xDF) :=
    fun ⟨least, most⟩ => shut _ (.two least most)
  have three : ¬ (0xE0 ≤ byte.toNat ∧ byte.toNat ≤ 0xEF) :=
    fun ⟨least, most⟩ => shut _ (.three least most)
  have four : ¬ (0xF0 ≤ byte.toNat ∧ byte.toNat ≤ 0xF4) :=
    fun ⟨least, most⟩ => shut _ (.four least most)
  simp only [start, UInt8.lt_iff_toNat_lt, ← UInt8.toNat_inj, UInt8.reduceToNat]
  by_cases ascii : byte.toNat < 0x80
  · rw [if_pos ascii, if_pos ascii]
  rw [if_neg ascii, if_neg ascii]
  by_cases early : byte.toNat < 0xC2
  · exact if_pos early
  · have late : 0xF4 < byte.toNat := by omega
    rw [if_neg early, if_neg (by omega), if_neg (by omega), if_neg (by omega),
      if_neg (by omega), if_neg (by omega), if_neg (by omega), if_neg (by omega)]

theorem step_of_last (one : sequence.missing = 1) (takes : sequence.Takes byte)
    : step (some sequence) byte = ([Char.ofNat (sequence.bitsWith byte)], none) := by
  rw [step, if_pos (c := _ ∧ _) takes]
  exact if_pos one

theorem step_of_more (several : sequence.missing ≠ 1) (takes : sequence.Takes byte)
    : step (some sequence) byte = ([], some (sequence.push byte)) := by
  rw [step, if_pos (c := _ ∧ _) takes]
  exact if_neg several

/-- A byte that the sequence does not take breaks it off and is read on its own. -/
theorem decodeFrom_of_not_takes (refused : ¬ sequence.Takes byte) (rest : List UInt8)
    : decodeFrom (some sequence) (byte :: rest)
      = replacement :: decodeFrom none (byte :: rest) := by
  rw [decodeFrom, step, if_neg (c := _ ∧ _) refused]
  rfl

-----------------------------------------------------------------------------------------
-- Reading a whole sequence
-----------------------------------------------------------------------------------------

theorem Completes.decodeFrom (completes : Completes sequence bytes char) (rest : List UInt8)
    : decodeFrom (some sequence) (bytes ++ rest) = char :: decodeFrom none rest := by
  induction completes with
  | last one next =>
      rw [List.singleton_append, Utf8.decodeFrom, step_of_last one next]
      rfl
  | more several next _ ih =>
      rw [List.cons_append, Utf8.decodeFrom, step_of_more several next]
      exact ih

theorem LeadsTo.decodeFrom (leads : LeadsTo bytes sequence) (rest : List UInt8)
    : decodeFrom none (bytes ++ rest) = decodeFrom (some sequence) rest := by
  induction leads generalizing rest with
  | lead opens =>
      rw [List.singleton_append, Utf8.decodeFrom, step, start_of_opens opens]
      rfl
  | next _ several takes ih =>
      rw [List.append_assoc, List.singleton_append, ih, Utf8.decodeFrom,
        step_of_more several takes]
      rfl

-----------------------------------------------------------------------------------------
-- Sequences and the forms of characters
-----------------------------------------------------------------------------------------

theorem Pending.takes_iff
    : sequence.Takes byte ↔
      sequence.low.toNat ≤ byte.toNat ∧ byte.toNat ≤ sequence.high.toNat := by
  rw [Takes, UInt8.le_iff_toNat_le, UInt8.le_iff_toNat_le]

theorem Pending.takes_push_iff
    : (sequence.push lead).Takes byte ↔ 0x80 ≤ byte.toNat ∧ byte.toNat ≤ 0xBF :=
  takes_iff

theorem Completes.of_one (completes : Completes sequence bytes char)
    (one : sequence.missing = 1)
    : ∃ byte, bytes = [byte] ∧ sequence.Takes byte
      ∧ char = Char.ofNat (sequence.bitsWith byte) := by
  cases completes with
  | last _ next => exact ⟨_, rfl, next, rfl⟩
  | more several => exact absurd one several

theorem Completes.of_several (completes : Completes sequence bytes char)
    (several : sequence.missing ≠ 1)
    : ∃ byte rest, bytes = byte :: rest ∧ sequence.Takes byte
      ∧ Completes (sequence.push byte) rest char := by
  cases completes with
  | last one => exact absurd one several
  | more _ next rest => exact ⟨_, _, rfl, next, rest⟩

theorem Completes.of_code (one : sequence.missing = 1) (next : sequence.Takes byte)
    (code : char.toNat = sequence.bitsWith byte)
    : Completes sequence [byte] char := by
  rw [← Char.ofNat_toNat char, code]
  exact .last one next

/-- The bytes of a character are a sequence that is complete with the last of them. -/
theorem exists_completes (form : String.utf8EncodeChar char = lead :: bytes)
    (several : bytes ≠ [])
    : ∃ sequence, Opens lead sequence ∧ Completes sequence bytes char := by
  have valid : char.toNat.isValidChar := char.valid
  simp only [Nat.isValidChar] at valid
  simp only [String.utf8EncodeChar, Char.toNat_val] at form
  -- One case for each number of bytes. That the second byte is in its narrower range is where
  -- it counts that the code is one of a character and not one of a shorter form.
  split at form
  next => exact absurd (List.cons.inj form).2.symm several
  split at form
  next =>
    obtain ⟨rfl, rfl⟩ := List.cons.inj form
    refine ⟨_, .two ?_ ?_, .of_code rfl (Pending.takes_iff.mpr ⟨?_, ?_⟩) ?_⟩
    all_goals
      simp only [Pending.bitsWith, UInt8.toNat_ofNat', UInt8.reduceToNat]
      omega
  split at form
  next =>
    obtain ⟨rfl, rfl⟩ := List.cons.inj form
    refine ⟨_, .three ?_ ?_, .more (Nat.succ_ne_self 1) (Pending.takes_iff.mpr ⟨?_, ?_⟩)
      (.of_code rfl (Pending.takes_push_iff.mpr ⟨?_, ?_⟩) ?_)⟩
    all_goals
      simp only [Pending.bitsWith, Pending.push, apply_ite UInt8.toNat, UInt8.toNat_ofNat',
        UInt8.reduceToNat]
      first | omega | split <;> omega
  next =>
    obtain ⟨rfl, rfl⟩ := List.cons.inj form
    refine ⟨_, .four ?_ ?_, .more (Nat.succ_succ_ne_one 1) (Pending.takes_iff.mpr ⟨?_, ?_⟩)
      (.more (Nat.succ_ne_self 1) (Pending.takes_push_iff.mpr ⟨?_, ?_⟩)
        (.of_code rfl (Pending.takes_push_iff.mpr ⟨?_, ?_⟩) ?_))⟩
    all_goals
      simp only [Pending.bitsWith, Pending.push, apply_ite UInt8.toNat, UInt8.toNat_ofNat',
        UInt8.reduceToNat]
      first | omega | split <;> omega

theorem toNat_char {code : Nat} (valid : code.isValidChar)
    : (Char.ofNat code).toNat = code := by
  rw [Char.ofNat, dif_pos valid]
  rfl

theorem form_one {code : Nat} (small : code < 0x80) (only : byte.toNat = code)
    : String.utf8EncodeChar (Char.ofNat code) = [byte] := by
  rw [String.utf8EncodeChar, Char.toNat_val, toNat_char (.inl (by omega)), if_pos (by omega),
    ← only, UInt8.ofNat_toNat]

theorem form_two {code : Nat} {second : UInt8} (least : 0x80 ≤ code) (most : code < 0x800)
    (first : lead.toNat = 0xC0 + code / 0x40) (last : second.toNat = 0x80 + code % 0x40)
    : String.utf8EncodeChar (Char.ofNat code) = [lead, second] := by
  rw [String.utf8EncodeChar, Char.toNat_val, toNat_char (.inl (by omega)), if_neg (by omega),
    if_pos (by omega)]
  simp only [List.cons.injEq, ← UInt8.toNat_inj, UInt8.toNat_ofNat', and_true]
  omega

theorem form_three {code : Nat} {second third : UInt8} (valid : code.isValidChar)
    (least : 0x800 ≤ code) (most : code < 0x10000)
    (first : lead.toNat = 0xE0 + code / 0x1000)
    (middle : second.toNat = 0x80 + code / 0x40 % 0x40)
    (last : third.toNat = 0x80 + code % 0x40)
    : String.utf8EncodeChar (Char.ofNat code) = [lead, second, third] := by
  rw [String.utf8EncodeChar, Char.toNat_val, toNat_char valid, if_neg (by omega),
    if_neg (by omega), if_pos (by omega)]
  simp only [List.cons.injEq, ← UInt8.toNat_inj, UInt8.toNat_ofNat', and_true]
  omega

theorem form_four {code : Nat} {second third fourth : UInt8} (least : 0x10000 ≤ code)
    (most : code < 0x110000) (first : lead.toNat = 0xF0 + code / 0x40000)
    (middle : second.toNat = 0x80 + code / 0x1000 % 0x40)
    (later : third.toNat = 0x80 + code / 0x40 % 0x40)
    (last : fourth.toNat = 0x80 + code % 0x40)
    : String.utf8EncodeChar (Char.ofNat code) = [lead, second, third, fourth] := by
  rw [String.utf8EncodeChar, Char.toNat_val, toNat_char (.inr ⟨by omega, most⟩),
    if_neg (by omega), if_neg (by omega), if_neg (by omega)]
  simp only [List.cons.injEq, ← UInt8.toNat_inj, UInt8.toNat_ofNat', and_true]
  omega

/-- A sequence that is complete is the form of the character that is read: the ranges of the
second byte keep out long forms, surrogates and numbers of no character.
-/
theorem encode_of_completes (opens : Opens lead sequence)
    (completes : Completes sequence bytes char)
    : String.utf8EncodeChar char = lead :: bytes := by
  -- The bounds of the second byte depend on the first, so they are taken apart before the code
  -- that both write is compared with the limits of its form.
  cases opens with
  | two least most =>
      obtain ⟨second, rfl, takes, rfl⟩ := completes.of_one rfl
      obtain ⟨low, high⟩ := Pending.takes_iff.mp takes
      simp only [UInt8.reduceToNat] at low high
      apply form_two
      all_goals
        simp only [Pending.bitsWith]
        omega
  | three least most =>
      obtain ⟨second, _, rfl, takes, completes⟩ := completes.of_several (Nat.succ_ne_self 1)
      obtain ⟨third, rfl, takesThird, rfl⟩ := completes.of_one rfl
      have ends := Pending.takes_push_iff.mp takesThird
      obtain ⟨low, high⟩ := Pending.takes_iff.mp takes
      simp only [apply_ite UInt8.toNat, UInt8.reduceToNat] at low high
      have atLeast : 0x80 ≤ second.toNat ∧ (lead.toNat = 0xE0 → 0xA0 ≤ second.toNat) := by
        split at low <;> omega
      have atMost : second.toNat ≤ 0xBF ∧ (lead.toNat = 0xED → second.toNat ≤ 0x9F) := by
        split at high <;> omega
      clear low high
      apply form_three
      all_goals
        simp only [Pending.bitsWith, Pending.push, Nat.isValidChar]
        omega
  | four least most =>
      obtain ⟨second, _, rfl, takes, completes⟩ :=
        completes.of_several (Nat.succ_succ_ne_one 1)
      obtain ⟨third, _, rfl, takesThird, completes⟩ :=
        completes.of_several (Nat.succ_ne_self 1)
      obtain ⟨fourth, rfl, takesFourth, rfl⟩ := completes.of_one rfl
      have goesOn := Pending.takes_push_iff.mp takesThird
      have ends := Pending.takes_push_iff.mp takesFourth
      obtain ⟨low, high⟩ := Pending.takes_iff.mp takes
      simp only [apply_ite UInt8.toNat, UInt8.reduceToNat] at low high
      have atLeast : 0x80 ≤ second.toNat ∧ (lead.toNat = 0xF0 → 0x90 ≤ second.toNat) := by
        split at low <;> omega
      have atMost : second.toNat ≤ 0xBF ∧ (lead.toNat = 0xF4 → second.toNat ≤ 0x8F) := by
        split at high <;> omega
      clear low high
      apply form_four
      all_goals
        simp only [Pending.bitsWith, Pending.push]
        omega

-----------------------------------------------------------------------------------------
-- Sequences under way and the beginnings of characters
-----------------------------------------------------------------------------------------

theorem LeadsTo.unfinished (leads : LeadsTo bytes sequence)
    : 0 < sequence.missing := by
  induction leads with
  | lead opens => cases opens <;> exact Nat.succ_pos _
  | next _ several _ ih => exact Nat.sub_pos_of_lt (Nat.lt_of_le_of_ne ih several.symm)

/-- The range after the first byte is not empty. -/
theorem Opens.takes_low (opens : Opens lead sequence) : sequence.Takes sequence.low := by
  rw [Pending.takes_iff]
  refine ⟨le_rfl, ?_⟩
  cases opens with
  | two => exact (by decide : (0x80 : UInt8).toNat ≤ (0xBF : UInt8).toNat)
  | three | four =>
      simp only [apply_ite UInt8.toNat, UInt8.reduceToNat]
      split <;> split <;> omega

/-- Any byte in the range can be followed by bytes that complete the sequence. -/
theorem exists_completes_cons (unfinished : 0 < sequence.missing) (takes : sequence.Takes byte)
    : ∃ rest char, Completes sequence (byte :: rest) char := by
  induction missing : sequence.missing generalizing sequence byte with
  | zero => omega
  | succ more ih =>
      by_cases one : sequence.missing = 1
      · exact ⟨[], _, .last one takes⟩
      · have fewer : (sequence.push byte).missing = more := Nat.sub_eq_of_eq_add missing
        obtain ⟨rest, char, completes⟩ := ih (by omega)
          (Pending.takes_push_iff.mpr (by decide : 0x80 ≤ (0x80 : UInt8).toNat ∧ _)) fewer
        exact ⟨_, char, .more one takes completes⟩

/-- What completes the sequence after some bytes makes them the form of a character. -/
theorem LeadsTo.encode_eq (leads : LeadsTo bytes sequence) {rest : List UInt8}
    (completes : Completes sequence rest char)
    : String.utf8EncodeChar char = bytes ++ rest := by
  induction leads generalizing rest with
  | lead opens => exact encode_of_completes opens completes
  | next _ several takes ih =>
      rw [List.append_assoc, List.singleton_append]
      exact ih (.more several takes completes)

theorem LeadsTo.append {rest middle : List UInt8} (leads : LeadsTo bytes sequence)
    (completes : Completes sequence (middle ++ rest) char) (unread : rest ≠ [])
    : ∃ later, LeadsTo (bytes ++ middle) later ∧ Completes later rest char := by
  induction middle generalizing bytes sequence with
  | nil => exact ⟨sequence, (List.append_nil bytes).symm ▸ leads, completes⟩
  | cons byte middle ih =>
      have several : sequence.missing ≠ 1 := by
        intro one
        obtain ⟨only, single, -⟩ := completes.of_one one
        exact unread (List.append_eq_nil_iff.mp (List.cons.inj single).2).2
      obtain ⟨_, _, same, takes, completes⟩ := completes.of_several several
      obtain ⟨rfl, rfl⟩ := List.cons.inj same
      rw [List.append_cons]
      exact ih (leads.next several takes) completes

/-- Every beginning of a character, the whole one apart, leads to a sequence. -/
theorem exists_leadsTo {rest : List UInt8}
    (form : String.utf8EncodeChar char = beginning ++ rest) (readSome : beginning ≠ [])
    (leftSome : rest ≠ [])
    : ∃ sequence, LeadsTo beginning sequence ∧ Completes sequence rest char := by
  obtain ⟨lead, middle, rfl⟩ := List.exists_cons_of_ne_nil readSome
  obtain ⟨sequence, opens, completes⟩ := exists_completes form
    (List.append_ne_nil_of_right_ne_nil middle leftSome)
  exact (LeadsTo.lead opens).append completes leftSome

end Numeral.Utf8
