import Mathlib.Data.List.Infix
import Numeral.Proofs.Text.Sequence

/-! What decoding makes of any bytes. They split into characters and invalid sequences, and
decoding gives one code point for each part, so text behind invalid bytes is read as it is.
-/

namespace Numeral.Utf8

-----------------------------------------------------------------------------------------
-- Parts of a byte string
-----------------------------------------------------------------------------------------

/-- The bytes begin the form of some character, or are one. -/
def Begins (bytes : List UInt8) : Prop :=
  ∃ char, bytes <+: String.utf8EncodeChar char

/-- The bytes begin the form of a character and end before it does. -/
structure BreaksOff (bytes : List UInt8) : Prop where
  read : bytes ≠ []
  beginning : ∃ char,
    bytes <+: String.utf8EncodeChar char ∧ bytes ≠ String.utf8EncodeChar char

/-- An invalid sequence in front of `rest`: the beginning of a character with which `rest`
does not go on, or one byte that begins none.
-/
inductive Invalid (rest : List UInt8) : List UInt8 → Prop
  | brokenOff {bytes : List UInt8} (breaksOff : BreaksOff bytes)
    (longest : ∀ byte ∈ rest.head?, ¬ Begins (bytes ++ [byte]))
    : Invalid rest bytes
  | stray {byte : UInt8} (alone : ¬ Begins [byte])
    : Invalid rest [byte]

/-- A part of a byte string. -/
inductive Segment
  | character (char : Char)
  | invalid (bytes : List UInt8)
deriving DecidableEq

namespace Segment

/-- The code point for the segment. -/
def read : Segment → Char
  | character char => char
  | invalid _ => replacement

def isInvalid : Segment → Bool
  | character _ => false
  | invalid _ => true

/-- The character of a segment that has one. -/
def char? : Segment → Option Char
  | character char => some char
  | invalid _ => none

end Segment

/-- The segments of a byte string in order, each as long as it can be. -/
inductive Splits : List UInt8 → List Segment → Prop
  | nil : Splits [] []
  | character {char : Char} {bytes : List UInt8} {segments : List Segment}
    (rest : Splits bytes segments)
    : Splits (String.utf8EncodeChar char ++ bytes) (.character char :: segments)
  | invalid {broken bytes : List UInt8} {segments : List Segment}
    (invalid : Invalid bytes broken) (rest : Splits bytes segments)
    : Splits (broken ++ bytes) (.invalid broken :: segments)

/-- The characters of the segments without what is invalid. -/
def kept (segments : List Segment) : List Char :=
  segments.filterMap Segment.char?

/-- How many segments are invalid. -/
def invalidCount (segments : List Segment) : Nat :=
  segments.countP Segment.isInvalid

/-- The function gives one code point for each segment, which is the replacement character
for an invalid one.
-/
def ReplacesInvalid (decoder : List UInt8 → List Char) : Prop :=
  ∀ bytes, ∃ segments, Splits bytes segments ∧ decoder bytes = segments.map Segment.read

variable {bytes rest : List UInt8} {segments : List Segment} {byte : UInt8} {char : Char}

theorem length_segments (segments : List Segment)
    : segments.length = (kept segments).length + invalidCount segments := by
  induction segments with
  | nil => rfl
  | cons segment segments ih =>
      cases segment with
      | character char =>
          rw [List.length_cons, ih]
          exact (Nat.succ_add _ _).symm
      | invalid bytes =>
          rw [List.length_cons, ih, invalidCount, invalidCount, List.countP_cons_of_pos rfl]
          rfl

/-- Bytes that begin a character and are not all of it break off. -/
theorem breaksOff_of_begins (begins : Begins bytes) (read : bytes ≠ [])
    (whole : ∀ char, bytes ≠ String.utf8EncodeChar char)
    : BreaksOff bytes :=
  ⟨read, begins.imp fun char beginning => ⟨beginning, whole char⟩⟩

/-- Every byte string has its segments, also behind the beginning of a character. -/
theorem exists_splits_append (bytes : List UInt8)
    : (∃ segments, Splits bytes segments)
      ∧ ∀ beginning, BreaksOff beginning → ∃ segments, Splits (beginning ++ bytes) segments := by
  induction bytes with
  | nil =>
      refine ⟨⟨[], .nil⟩, fun beginning breaksOff => ?_⟩
      refine ⟨_, .invalid (.brokenOff breaksOff ?_) .nil⟩
      exact fun byte absent => absurd absent (Option.not_mem_none byte)
  | cons byte bytes ih =>
      obtain ⟨⟨segments, splits⟩, goesOn⟩ := ih
      -- Whether the byte is one more of a beginning decides how that beginning ends.
      have oneMore : ∀ beginning, Begins (beginning ++ [byte]) →
          ∃ segments, Splits (beginning ++ byte :: bytes) segments := by
        intro beginning begins
        rw [List.append_cons]
        by_cases whole : ∃ char, beginning ++ [byte] = String.utf8EncodeChar char
        · obtain ⟨char, form⟩ := whole
          exact ⟨_, form ▸ Splits.character splits⟩
        · refine goesOn _ (breaksOff_of_begins begins ?_ (not_exists.mp whole))
          exact List.append_ne_nil_of_right_ne_nil beginning (List.cons_ne_nil byte [])
      have alone : ∃ segments, Splits (byte :: bytes) segments := by
        by_cases begins : Begins [byte]
        · exact oneMore [] begins
        · exact ⟨_, .invalid (.stray begins) splits⟩
      refine ⟨alone, fun beginning breaksOff => ?_⟩
      by_cases begins : Begins (beginning ++ [byte])
      · exact oneMore beginning begins
      · obtain ⟨later, splitsLater⟩ := alone
        refine ⟨_, .invalid (.brokenOff breaksOff ?_) splitsLater⟩
        exact fun next here => Option.some.inj here ▸ begins

theorem exists_splits (bytes : List UInt8) : ∃ segments, Splits bytes segments :=
  (exists_splits_append bytes).1

-----------------------------------------------------------------------------------------
-- Decoding a segment
-----------------------------------------------------------------------------------------

theorem start_of_form (form : String.utf8EncodeChar char = [byte])
    : start byte = ([char], none) := by
  simp only [String.utf8EncodeChar, Char.toNat_val] at form
  split at form
  next small =>
    obtain rfl := (List.cons.inj form).1
    have code : (UInt8.ofNat char.toNat).toNat = char.toNat := by
      rw [UInt8.toNat_ofNat']
      omega
    have ascii : UInt8.ofNat char.toNat < 0x80 := by
      rw [UInt8.lt_iff_toNat_lt, code]
      exact Nat.lt_succ_of_le small
    rw [start, if_pos ascii, code, Char.ofNat_toNat]
  all_goals
    repeat' split at form
    all_goals simp at form

theorem decode_character (char : Char) (rest : List UInt8)
    : decode (String.utf8EncodeChar char ++ rest) = char :: decode rest := by
  obtain ⟨lead, bytes, form⟩ :=
    List.exists_cons_of_ne_nil (String.utf8EncodeChar_ne_nil (c := char))
  rw [form]
  by_cases single : bytes = []
  · subst single
    rw [List.singleton_append, decode, decodeFrom, step, start_of_form form]
    rfl
  · obtain ⟨sequence, opens, completes⟩ := exists_completes form single
    rw [decode, List.cons_append, ← List.singleton_append, (LeadsTo.lead opens).decodeFrom,
      completes.decodeFrom]
    rfl

theorem LeadsTo.begins {sequence : Pending} (leads : LeadsTo bytes sequence)
    (takes : sequence.Takes byte)
    : Begins (bytes ++ [byte]) := by
  obtain ⟨rest, char, completes⟩ := exists_completes_cons leads.unfinished takes
  refine ⟨char, rest, ?_⟩
  rw [leads.encode_eq completes, List.append_assoc]
  rfl

theorem decode_brokenOff (breaksOff : BreaksOff bytes)
    (longest : ∀ byte ∈ rest.head?, ¬ Begins (bytes ++ [byte]))
    : decode (bytes ++ rest) = replacement :: decode rest := by
  obtain ⟨read, char, ⟨missing, form⟩, short⟩ := breaksOff
  have left : missing ≠ [] := by
    rintro rfl
    exact short (form ▸ (List.append_nil bytes).symm)
  obtain ⟨sequence, leads, -⟩ := exists_leadsTo form.symm read left
  rw [decode, leads.decodeFrom]
  cases rest with
  | nil => rfl
  | cons byte rest =>
      exact decodeFrom_of_not_takes (fun takes => longest byte rfl (leads.begins takes)) rest

theorem decode_stray (alone : ¬ Begins [byte]) (rest : List UInt8)
    : decode (byte :: rest) = replacement :: decode rest := by
  have shut : ∀ sequence, ¬ Opens byte sequence := by
    intro sequence opens
    obtain ⟨bytes, char, completes⟩ :=
      exists_completes_cons (LeadsTo.lead opens).unfinished opens.takes_low
    exact alone ⟨char, encode_of_completes opens completes ▸ ⟨_, rfl⟩⟩
  have notAscii : ¬ byte.toNat < 0x80 := by
    intro small
    exact alone ⟨Char.ofNat byte.toNat, (form_one small rfl).symm ▸ List.prefix_rfl⟩
  rw [decode, decodeFrom, step, start_of_not_opens shut, if_neg notAscii]
  rfl

/-- One code point for each segment is what decoding gives. -/
theorem Splits.decode_eq (splits : Splits bytes segments)
    : decode bytes = segments.map Segment.read := by
  induction splits with
  | nil => rfl
  | character _ ih => rw [decode_character, ih]; rfl
  | invalid invalid _ ih =>
      cases invalid with
      | brokenOff breaksOff longest => rw [decode_brokenOff breaksOff longest, ih]; rfl
      | stray alone => rw [List.singleton_append, decode_stray alone, ih]; rfl

theorem replacesInvalid_iff {decoder : List UInt8 → List Char}
    : ReplacesInvalid decoder ↔ decoder = decode := by
  constructor
  · intro replaces
    funext bytes
    obtain ⟨segments, splits, read⟩ := replaces bytes
    rw [read, splits.decode_eq]
  · rintro rfl bytes
    exact (exists_splits bytes).imp fun _ splits => ⟨splits, splits.decode_eq⟩

-----------------------------------------------------------------------------------------
-- Text behind any bytes
-----------------------------------------------------------------------------------------

theorem encode_cons (char : Char) (text : List Char)
    : encode (char :: text) = String.utf8EncodeChar char ++ encode text :=
  List.flatMap_cons

theorem encode_append (text more : List Char)
    : encode (text ++ more) = encode text ++ encode more :=
  List.flatMap_append

/-- The form of a text is the one that strings have. -/
theorem encode_toList (text : String) : encode text.toList = text.toUTF8.data.toList := by
  obtain ⟨chars, rfl⟩ : ∃ chars, text = String.ofList chars :=
    ⟨text.toList, String.ofList_toList.symm⟩
  rw [String.toUTF8_eq_toByteArray, String.toByteArray_ofList, List.utf8Encode,
    List.data_toByteArray, String.toList_ofList]
  rfl

theorem splits_encode (text : List Char) : Splits (encode text) (text.map .character) := by
  induction text with
  | nil => exact .nil
  | cons char text ih => exact encode_cons char text ▸ .character ih

/-- Of the bytes of a character only the first is one that begins a character. -/
theorem isUTF8FirstByte_iff {place : Nat}
    (here : (String.utf8EncodeChar char)[place]? = some byte)
    : byte.IsUTF8FirstByte ↔ place = 0 := by
  obtain ⟨inside, rfl⟩ := List.getElem?_eq_some_iff.mp here
  exact UInt8.isUTF8FirstByte_getElem_utf8EncodeChar

/-- A character begins with a byte that goes on with no other character. -/
theorem not_begins_append_head (read : bytes ≠ []) (text : List Char)
    : ∀ byte ∈ (encode text).head?, ¬ Begins (bytes ++ [byte]) := by
  rintro byte first ⟨whole, rest, form⟩
  cases text with
  | nil => exact absurd first (Option.not_mem_none byte)
  | cons char text =>
      have begins : (String.utf8EncodeChar char)[0]? = some byte := by
        rwa [encode_cons, Option.mem_def, List.head?_eq_getElem?,
          List.getElem?_append_left (List.length_pos_of_ne_nil String.utf8EncodeChar_ne_nil)]
          at first
      have goesOn : (String.utf8EncodeChar whole)[bytes.length]? = some byte := by
        rw [← form, List.append_assoc, List.getElem?_append_right le_rfl, Nat.sub_self]
        rfl
      have noneRead := (isUTF8FirstByte_iff goesOn).mp ((isUTF8FirstByte_iff begins).mpr rfl)
      exact read (List.eq_nil_of_length_eq_zero noneRead)

theorem Invalid.append_encode {broken : List UInt8} (invalid : Invalid bytes broken)
    (text : List Char)
    : Invalid (bytes ++ encode text) broken := by
  cases invalid with
  | stray alone => exact .stray alone
  | brokenOff breaksOff longest =>
      refine .brokenOff breaksOff ?_
      cases bytes with
      | nil => exact not_begins_append_head breaksOff.read text
      | cons => exact longest

/-- Text that follows any bytes adds its own characters to their segments. -/
theorem Splits.append_encode (splits : Splits bytes segments) (text : List Char)
    : Splits (bytes ++ encode text) (segments ++ text.map .character) := by
  induction splits with
  | nil => exact splits_encode text
  | character _ ih => exact List.append_assoc .. ▸ .character ih
  | invalid invalid _ ih =>
      exact List.append_assoc .. ▸ .invalid (invalid.append_encode text) ih

theorem Splits.encode_append (splits : Splits bytes segments) (text : List Char)
    : Splits (encode text ++ bytes) (text.map .character ++ segments) := by
  induction text with
  | nil => exact splits
  | cons char text ih =>
      rw [encode_cons, List.append_assoc]
      exact .character ih

/-- Text is read as it is behind any bytes, whatever they are. -/
theorem decode_append_encode (bytes : List UInt8) (text : List Char)
    : decode (bytes ++ encode text) = decode bytes ++ text := by
  obtain ⟨segments, splits⟩ := exists_splits bytes
  rw [(splits.append_encode text).decode_eq, splits.decode_eq, List.map_append, List.map_map]
  exact congrArg _ (List.map_id text)

theorem decode_encode (text : List Char) : decode (encode text) = text :=
  decode_append_encode [] text

/-- The beginning of a character that breaks off between two texts is replaced as a whole, and
nothing else is.
-/
theorem decode_breaksOff_between (breaksOff : BreaksOff bytes) (before after : List Char)
    : decode (encode before ++ bytes ++ encode after) = before ++ replacement :: after := by
  have alone : Splits bytes [.invalid bytes] := by
    have ends : ∀ byte ∈ [].head?, ¬ Begins (bytes ++ [byte]) :=
      fun byte absent => absurd absent (Option.not_mem_none byte)
    have splits := Splits.invalid (.brokenOff breaksOff ends) .nil
    rwa [List.append_nil] at splits
  rw [decode_append_encode, (alone.encode_append before).decode_eq, List.map_append,
    List.map_map]
  have same : before.map (Segment.read ∘ .character) = before := List.map_id before
  rw [same, List.append_assoc]
  rfl

end Numeral.Utf8
