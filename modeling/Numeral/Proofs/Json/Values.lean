import Numeral.Json.Basic
import Numeral.Proofs.Json.Tokens

/-! JSON values read as they are written. The reader goes on token by token, so its statements say
where it is after the tokens of a value, whatever encloses the value and whatever follows. Read
values are sound in turn, so all that can be read can be written.
-/

namespace Numeral.Json

/-- Every number and every string in the value can be written. -/
inductive IsSound : Json → Prop
  | null : IsSound .null
  | bool (value) : IsSound (.bool value)
  | number {written} (sound : Token.isNumber written = true) : IsSound (.number written)
  | string {pieces} (sound : ∀ piece ∈ pieces, piece.IsSound) : IsSound (.string pieces)
  | array {items} (sound : ∀ item ∈ items, IsSound item) : IsSound (.array items)
  | object {fields} (names : ∀ field ∈ fields, ∀ piece ∈ field.1, piece.IsSound)
    (values : ∀ field ∈ fields, IsSound field.2)
    : IsSound (.object fields)

-----------------------------------------------------------------------------------------
-- From text to tokens
-----------------------------------------------------------------------------------------

open Token (Reads)

theorem reads_mark {mark : Token} (isMark : mark.IsMark) {tokens : List Token}
    (reads : Reads tokens)
    : Reads (mark :: tokens) := by
  rcases isMark with rfl | rfl | rfl <;> exact reads.cons trivial (by simp)

/-- Read values are parted by commas, and the last ends where the array does. -/
theorem reads_itemTokens {items : List Json} (each : ∀ item ∈ items, Reads item.tokens)
    : Reads (itemTokens items ++ [.closeArray]) := by
  have closes : Reads [.closeArray] := Token.reads_singleton trivial
  induction items with
  | nil => exact closes
  | cons item others ih =>
      obtain ⟨first, later⟩ := List.forall_mem_cons.mp each
      cases others with
      | nil => exact first.append closes ⟨_, rfl, .inr (.inl rfl)⟩
      | cons next more =>
          rw [itemTokens, List.append_assoc, List.cons_append]
          · exact first.append (reads_mark (.inl rfl) (ih later)) ⟨_, rfl, .inl rfl⟩
          · simp

theorem reads_field {name : List Piece} {tokens : List Token}
    (sound : ∀ piece ∈ name, piece.IsSound) (reads : Reads tokens)
    : Reads (.string name :: .colon :: tokens) := by
  have behind : Reads (.colon :: tokens) := reads.cons trivial (by simp)
  exact behind.cons sound (by simp)

theorem reads_fieldTokens {fields : List (List Piece × Json)}
    (names : ∀ field ∈ fields, ∀ piece ∈ field.1, piece.IsSound)
    (each : ∀ field ∈ fields, Reads field.2.tokens)
    : Reads (fieldTokens fields ++ [.closeObject]) := by
  have closes : Reads [.closeObject] := Token.reads_singleton trivial
  induction fields with
  | nil => exact closes
  | cons field others ih =>
      obtain ⟨first, later⟩ := List.forall_mem_cons.mp each
      obtain ⟨name, laterNames⟩ := List.forall_mem_cons.mp names
      cases others with
      | nil => exact reads_field name (first.append closes ⟨_, rfl, .inr (.inr rfl)⟩)
      | cons next more =>
          have behind := reads_mark (.inl rfl) (ih laterNames later)
          rw [fieldTokens, List.cons_append, List.cons_append, List.append_assoc,
            List.cons_append]
          · exact reads_field name (first.append behind ⟨_, rfl, .inl rfl⟩)
          · simp

theorem IsSound.reads {json : Json} (sound : json.IsSound)
    : Reads json.tokens := by
  induction sound with
  | null => exact Token.reads_singleton trivial
  | bool value => exact Token.reads_singleton trivial
  | number sound => exact Token.reads_singleton sound
  | string sound => exact Token.reads_singleton sound
  | array _ each => exact (reads_itemTokens each).cons trivial (by simp)
  | object names _ each => exact (reads_fieldTokens names each).cons trivial (by simp)

-----------------------------------------------------------------------------------------
-- From tokens to values
-----------------------------------------------------------------------------------------

/-- Where a value is due its tokens are taken for it, inside whatever and before whatever. -/
def Takes (json : Json) : Prop :=
  ∀ outer more,
    (json.tokens ++ more).foldlM Expectation.step (.valueDue outer)
    = more.foldlM Expectation.step (.read outer json)

/-- An array may begin with any value. -/
theorem foldlM_firstItemDue (item : Json) (others : List Json) (outer : List Frame)
    (more : List Token)
    : (itemTokens (item :: others) ++ more).foldlM Expectation.step (.firstItemDue outer)
      = (itemTokens (item :: others) ++ more).foldlM Expectation.step
          (.valueDue (.array [] :: outer)) := by
  cases others <;> cases item <;> rfl

/-- An object may begin with any field. -/
theorem foldlM_firstNameDue (field : List Piece × Json) (others : List (List Piece × Json))
    (outer : List Frame) (more : List Token)
    : (fieldTokens (field :: others) ++ more).foldlM Expectation.step (.firstNameDue outer)
      = (fieldTokens (field :: others) ++ more).foldlM Expectation.step (.nameDue outer []) := by
  cases others <;> rfl

theorem takes_itemTokens {items : List Json} (each : ∀ item ∈ items, item.Takes)
    (present : items ≠ []) (before : List Json) (outer : List Frame) (more : List Token)
    : (itemTokens items ++ .closeArray :: more).foldlM Expectation.step
        (.valueDue (.array before :: outer))
      = more.foldlM Expectation.step (.read outer (.array (before.reverse ++ items))) := by
  induction items generalizing before with
  | nil => contradiction
  | cons item others ih =>
      obtain ⟨first, later⟩ := List.forall_mem_cons.mp each
      cases others with
      | nil =>
          rw [itemTokens, first]
          simp [Expectation.step, Expectation.afterValue]
      | cons next rest =>
          rw [itemTokens, List.append_assoc, first, List.cons_append, List.foldlM_cons]
          · simp only [Expectation.step, Expectation.afterValue, Option.bind_eq_bind,
              Option.bind_some]
            rw [ih later (by simp)]
            simp
          · simp

theorem takes_fieldTokens {fields : List (List Piece × Json)}
    (each : ∀ field ∈ fields, field.2.Takes) (present : fields ≠ [])
    (before : List (List Piece × Json)) (outer : List Frame) (more : List Token)
    : (fieldTokens fields ++ .closeObject :: more).foldlM Expectation.step
        (.nameDue outer before)
      = more.foldlM Expectation.step (.read outer (.object (before.reverse ++ fields))) := by
  induction fields generalizing before with
  | nil => contradiction
  | cons field others ih =>
      obtain ⟨first, later⟩ := List.forall_mem_cons.mp each
      cases others with
      | nil =>
          rw [fieldTokens]
          simp only [List.cons_append, List.foldlM_cons, Expectation.step, Option.bind_eq_bind,
            Option.bind_some]
          rw [first]
          simp [Expectation.step, Expectation.afterValue]
      | cons next rest =>
          rw [fieldTokens]
          · simp only [List.cons_append, List.append_assoc, List.foldlM_cons, Expectation.step,
              Option.bind_eq_bind, Option.bind_some]
            rw [first]
            simp only [List.foldlM_cons, Expectation.step, Expectation.afterValue,
              Option.bind_eq_bind, Option.bind_some]
            rw [ih later (by simp)]
            simp
          · simp

theorem IsSound.takes {json : Json} (sound : json.IsSound)
    : json.Takes := by
  induction sound with
  | null | bool | number | string => exact fun outer more => rfl
  | @array items _ each =>
      intro outer more
      rw [tokens, List.cons_append, List.append_assoc, List.singleton_append, List.foldlM_cons]
      simp only [Expectation.step, Expectation.beginValue, Option.bind_eq_bind, Option.bind_some]
      cases items with
      | nil => rfl
      | cons item others =>
          rw [foldlM_firstItemDue]
          exact takes_itemTokens each (by simp) [] outer more
  | @object fields _ _ each =>
      intro outer more
      rw [tokens, List.cons_append, List.append_assoc, List.singleton_append, List.foldlM_cons]
      simp only [Expectation.step, Expectation.beginValue, Option.bind_eq_bind, Option.bind_some]
      cases fields with
      | nil => rfl
      | cons field others =>
          rw [foldlM_firstNameDue]
          exact takes_fieldTokens each (by simp) [] outer more

/-- What is written is read. -/
theorem IsSound.ofText?_write {json : Json} (sound : json.IsSound)
    : ofText? json.write = some json := by
  have read := sound.reads [] (by simp [Token.EndsNumber])
  have taken := sound.takes [] []
  rw [List.append_nil] at read taken
  rw [ofText?, write, read, Token.ofText?]
  simp only [Option.map_some, List.append_nil, Option.bind_some, ofTokens?, taken]
  rfl

-----------------------------------------------------------------------------------------
-- What is read
-----------------------------------------------------------------------------------------

/-- What an array or object under way holds so far is sound. -/
def Frame.IsSound : Frame → Prop
  | .array items => ∀ item ∈ items, item.IsSound
  | .object fields name =>
      (∀ piece ∈ name, piece.IsSound)
      ∧ ∀ field ∈ fields, (∀ piece ∈ field.1, piece.IsSound) ∧ field.2.IsSound

namespace Expectation

/-- All that has been read so far is sound. -/
def IsSound : Expectation → Prop
  | valueDue outer | firstItemDue outer | firstNameDue outer => ∀ frame ∈ outer, frame.IsSound
  | nameDue outer fields => ∀ frame ∈ .object fields [] :: outer, frame.IsSound
  | colonDue outer fields name => ∀ frame ∈ .object fields name :: outer, frame.IsSound
  | read outer value => (∀ frame ∈ outer, frame.IsSound) ∧ value.IsSound

variable {outer : List Frame} {token : Token} {value : Json} {before after : Expectation}

theorem beginValue_isSound (sound : ∀ frame ∈ outer, frame.IsSound) (given : token.IsSound)
    (found : beginValue outer token = some after)
    : after.IsSound := by
  cases token with
  | null => cases found; exact ⟨sound, .null⟩
  | bool value => cases found; exact ⟨sound, .bool value⟩
  | number written => cases found; exact ⟨sound, .number given⟩
  | string pieces => cases found; exact ⟨sound, .string given⟩
  | openArray | openObject => cases found; exact sound
  | _ => contradiction

theorem afterValue_isSound (sound : ∀ frame ∈ outer, frame.IsSound) (given : value.IsSound)
    (found : afterValue value outer token = some after)
    : after.IsSound := by
  unfold afterValue at found
  split at found
  next items outer =>
    cases found
    obtain ⟨first, later⟩ := List.forall_mem_cons.mp sound
    exact List.forall_mem_cons.mpr ⟨List.forall_mem_cons.mpr ⟨given, first⟩, later⟩
  next items outer =>
    cases found
    obtain ⟨first, later⟩ := List.forall_mem_cons.mp sound
    refine ⟨later, .array fun item member => ?_⟩
    exact List.forall_mem_cons.mpr ⟨given, first⟩ item (List.mem_reverse.mp member)
  next fields name outer =>
    cases found
    obtain ⟨⟨named, first⟩, later⟩ := List.forall_mem_cons.mp sound
    refine List.forall_mem_cons.mpr ⟨⟨by simp, ?_⟩, later⟩
    exact List.forall_mem_cons.mpr ⟨⟨named, given⟩, first⟩
  next fields name outer =>
    cases found
    obtain ⟨⟨named, first⟩, later⟩ := List.forall_mem_cons.mp sound
    have every : ∀ field ∈ ((name, value) :: fields).reverse,
        (∀ piece ∈ field.1, piece.IsSound) ∧ field.2.IsSound := fun field member =>
      List.forall_mem_cons.mpr ⟨⟨named, given⟩, first⟩ field (List.mem_reverse.mp member)
    exact ⟨later, .object (fun field member => (every field member).1)
      fun field member => (every field member).2⟩
  next => contradiction

/-- One more sound token leaves what is read sound. -/
theorem step_isSound (sound : before.IsSound) (given : token.IsSound)
    (found : before.step token = some after)
    : after.IsSound := by
  unfold step at found
  split at found
  next outer token => exact beginValue_isSound sound given found
  next outer =>
    cases found
    exact ⟨sound, .array (by simp)⟩
  next outer token _ =>
    refine beginValue_isSound (List.forall_mem_cons.mpr ⟨?_, sound⟩) given found
    exact List.forall_mem_nil _
  next outer =>
    cases found
    exact ⟨sound, .object (by simp) (by simp)⟩
  next outer name =>
    cases found
    exact List.forall_mem_cons.mpr ⟨⟨given, by simp⟩, sound⟩
  next outer fields name =>
    cases found
    obtain ⟨first, later⟩ := List.forall_mem_cons.mp sound
    exact List.forall_mem_cons.mpr ⟨⟨given, first.2⟩, later⟩
  next outer fields name =>
    cases found
    exact sound
  next outer value token => exact afterValue_isSound sound.1 sound.2 found
  next => contradiction

theorem foldlM_isSound {tokens : List Token} (sound : before.IsSound)
    (given : ∀ token ∈ tokens, token.IsSound) (found : tokens.foldlM step before = some after)
    : after.IsSound := by
  induction tokens generalizing before with
  | nil => cases found; exact sound
  | cons token others ih =>
      obtain ⟨first, later⟩ := List.forall_mem_cons.mp given
      obtain ⟨middle, once, often⟩ := Option.bind_eq_some_iff.mp found
      exact ih (step_isSound sound first once) later often

end Expectation

/-- Reading makes sound values. -/
theorem isSound_of_ofText? {text : List Char} {json : Json} (found : ofText? text = some json)
    : json.IsSound := by
  obtain ⟨tokens, read, taken⟩ := Option.bind_eq_some_iff.mp found
  unfold ofTokens? at taken
  split at taken
  next value reached =>
    cases taken
    have initially : (Expectation.valueDue []).IsSound := List.forall_mem_nil _
    exact (Expectation.foldlM_isSound initially (Token.isSound_of_ofText? read) reached).2
  next => contradiction

end Numeral.Json
