import Numeral.Proofs.Reading.Dispatch
import Numeral.Proofs.Reading.Translation
import Numeral.Proofs.Text.Decoding

/-! Reading from bytes is reading from the text that they write. What is invalid in front of a
literal moves it by one code point for each invalid sequence, and changes nothing else.
-/

namespace Numeral

variable {α : Type}

/-- `moved` is the reading that is made `count` code points further on. -/
structure Reading.MovesBy (count : Nat) (reading moved : Reading α) : Prop where
  outcome
    : moved.outcome
      = match reading.outcome with
        | .ok outcome => .ok (outcome.shift count)
        | .error defect => .error (defect.shift count)
  events : moved.events = reading.events.map (·.shift count)
  offset : moved.cursor.offset = count + reading.cursor.offset

/-- What is read from bytes is what is read from text: the same at each place of a text, and
behind any bytes what is read behind their characters alone, moved by one for each invalid
sequence among them.
-/
structure Reading.ReadsBytes (read : Cursor → Reading α) : Prop where
  text
    : ∀ text place,
        read (.ofText (Utf8.decode (Utf8.encode text)) place) = read (.ofText text place)
  behind
    : ∀ bytes segments text place,
        Utf8.Splits bytes segments
        → Reading.MovesBy (Utf8.invalidCount segments)
            (read
              (.ofText (Utf8.kept segments ++ text) ((Utf8.kept segments).length + place)))
            (read
              (.ofText (Utf8.decode (bytes ++ Utf8.encode text)) (segments.length + place)))

/-- Decoding keeps the rule for invalid bytes, as nothing else does, and so gives back the text
of a string.
-/
structure Utf8.DecodesText : Prop where
  rule : ∀ decoder, ReplacesInvalid decoder ↔ decoder = decode
  encodes : ∀ text : String, encode text.toList = text.toUTF8.data.toList
  string : ∀ text : String, decode text.toUTF8.data.toList = text.toList
  brokenOff
    : ∀ broken before after,
        BreaksOff broken
        → decode (encode before ++ broken ++ encode after) = before ++ replacement :: after
  length_le : ∀ bytes, (decode bytes).length ≤ bytes.length

/-- Reading bytes agrees with reading strings, from their beginning and at every place. -/
structure Options.ReadsBytesAsText (options : Options) : Prop where
  decodes : Utf8.DecodesText
  numberOf
    : ∀ text : String,
        ((Cursor.ofText (Utf8.decode text.toUTF8.data.toList) 0).readNumber {}).outcome
          = .ok (numberOf text)
  signedNumberOf
    : ∀ text : String,
        ((Cursor.ofText (Utf8.decode text.toUTF8.data.toList) 0).readSignedNumber {}).outcome
          = .ok (signedNumberOf text)
  radix : ∀ radix, Reading.ReadsBytes fun cursor => cursor.readRadix options radix
  literal : Reading.ReadsBytes fun cursor => cursor.readLiteral options
  number : Reading.ReadsBytes fun cursor => cursor.readNumber options
  signedNumber : Reading.ReadsBytes fun cursor => cursor.readSignedNumber options
  exponent : ∀ marker, Reading.ReadsBytes fun cursor => cursor.readExponent marker
  scaled : ∀ mantissa, Reading.ReadsBytes fun cursor => cursor.applyExponent mantissa

theorem Defect.shift_shift (defect : Defect) (count more : Nat)
    : (defect.shift count).shift more = defect.shift (more + count) := by
  simp only [shift, Nat.add_assoc]

theorem Outcome.shift_shift (outcome : Outcome α) (count more : Nat)
    : (outcome.shift count).shift more = outcome.shift (more + count) := by
  cases outcome <;> simp only [shift, Nat.add_assoc]

theorem Event.shift_shift (event : Event) (count more : Nat)
    : (event.shift count).shift more = event.shift (more + count) := by
  cases event <;> simp only [shift, Nat.add_assoc]

/-- A reading moves by as much as the text in front of it gets longer. -/
theorem Reading.MovesBy.of_after {count : Nat} {before more : List Char}
    (longer : more.length = count + before.length) (reading : Reading α)
    : MovesBy count (reading.after before) (reading.after more) := by
  rcases reading with ⟨outcome, events, cursor⟩
  refine ⟨?_, ?_, ?_⟩
  · rcases outcome with defect | outcome
    · exact congrArg _ (longer ▸ (defect.shift_shift _ count).symm)
    · exact congrArg _ (longer ▸ (outcome.shift_shift _ count).symm)
  · simp only [after, List.map_map, longer]
    exact List.map_congr_left fun event _ => (event.shift_shift _ count).symm
  · simp only [after, Cursor.after, longer, Nat.add_assoc]

theorem Cursor.ofText_append (before text : List Char) (place : Nat)
    : ofText (before ++ text) (before.length + place) = (ofText text place).after before := by
  simp only [ofText, after, List.length_append, Nat.add_min_add_left]

/-- A reading that is the same everywhere is the same from bytes. -/
theorem Reading.Translates.readsBytes {read : Cursor → Reading α} (translates : Translates read)
    : ReadsBytes read where
  text text place := by rw [Utf8.decode_encode]
  behind bytes segments text place splits := by
    have length : (segments.map Utf8.Segment.read).length = segments.length :=
      List.length_map _
    rw [Utf8.decode_append_encode, splits.decode_eq, ← length, Cursor.ofText_append,
      Cursor.ofText_append, translates.moved, translates.moved]
    refine .of_after ?_ _
    rw [length, Utf8.length_segments, Nat.add_comm]

theorem Utf8.decodesText : DecodesText where
  rule _ := replacesInvalid_iff
  encodes := encode_toList
  string text := by rw [← encode_toList, decode_encode]
  brokenOff _ before after breaksOff := decode_breaksOff_between breaksOff before after
  length_le := length_decode_le

theorem Cursor.unread_ofText_zero (text : List Char)
    : (ofText text 0).unread = text :=
  congrArg (List.drop · text) (Nat.zero_min text.length)

/-- Bytes are read as the text that they write, broken or not. -/
theorem Options.reads_bytes_as_text (options : Options) : options.ReadsBytesAsText where
  decodes := Utf8.decodesText
  numberOf text := by
    rw [Utf8.decodesText.string, Cursor.outcome_readNumber _ rfl, Cursor.unread_ofText_zero]
    rfl
  signedNumberOf text := by
    rw [Utf8.decodesText.string, Cursor.outcome_readSignedNumber _ rfl,
      Cursor.unread_ofText_zero]
    rfl
  radix radix := (Reading.translates_read (radix.literal? options)).readsBytes
  literal := (Reading.translates_readLiteral options).readsBytes
  number := ((Reading.translates_readLiteral options).map Prod.snd).readsBytes
  signedNumber := (Reading.translates_readSignedNumber options).readsBytes
  exponent marker := (Reading.translates_read marker.exponent?).readsBytes
  scaled _ := (Reading.translates_read _).readsBytes

end Numeral
