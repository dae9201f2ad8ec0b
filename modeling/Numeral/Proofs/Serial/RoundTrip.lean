import Numeral.Proofs.Serial.Refusals

/-! What is written is read again. The writer makes one text of a value and the reader takes many
texts for it, so a text that is read need not be written again, but its value is.
-/

namespace Numeral

-----------------------------------------------------------------------------------------
-- Texts
-----------------------------------------------------------------------------------------

section Texts

variable {α : Type} {toJson : α → Json} {ofJson? : Json → Option α} {Fits : α → Prop}
  {text : List Char} {json : Json} {value : α}

/-- The text is read as this value. -/
def Decodes (ofJson? : Json → Option α) (text : List Char) (value : α) : Prop :=
  (Json.ofText? text).bind ofJson? = some value

/-- What is written is read as the value that it was written for, and what is read at all can be
written and read again.
-/
structure RoundTrips (toJson : α → Json) (ofJson? : Json → Option α) (Fits : α → Prop)
    : Prop where
  written : ∀ value, Fits value → Decodes ofJson? (toJson value).write value
  rewritten
    : ∀ text value, Decodes ofJson? text value → Decodes ofJson? (toJson value).write value

/-- Nothing is read from a text of such JSON. -/
def Refuses (ofJson? : Json → Option α) (Wrong : Json → Prop) : Prop :=
  ∀ text json, Json.ofText? text = some json → Wrong json → ∀ value, ¬ Decodes ofJson? text value

theorem decodes_iff (read : Json.ofText? text = some json)
    : Decodes ofJson? text value ↔ ofJson? json = some value := by
  rw [Decodes, read, Option.bind_some]

/-- Round trips of texts are those of JSON values, which are sound if they were read. -/
theorem RoundTrips.of_json (sound : ∀ value, (toJson value).IsSound)
    (inverse : ∀ value, Fits value → ofJson? (toJson value) = some value)
    (fits : ∀ json value, json.IsSound → ofJson? json = some value → Fits value)
    : RoundTrips toJson ofJson? Fits := by
  have written (value : α) (fit : Fits value) : Decodes ofJson? (toJson value).write value :=
    (decodes_iff (sound value).ofText?_write).mpr (inverse value fit)
  refine ⟨written, fun text value decodes => written value ?_⟩
  obtain ⟨json, read, found⟩ := Option.bind_eq_some_iff.mp decodes
  exact fits json value (Json.isSound_of_ofText? read) found

theorem Refuses.of_json {Wrong : Json → Prop}
    (right : ∀ json value, json.IsSound → ofJson? json = some value → ¬ Wrong json)
    : Refuses ofJson? Wrong := by
  intro text json read wrong value decodes
  exact right json value (Json.isSound_of_ofText? read) ((decodes_iff read).mp decodes) wrong

end Texts

-----------------------------------------------------------------------------------------
-- Options
-----------------------------------------------------------------------------------------

namespace Options

variable {options : Options} {json : Json}

/-- The written fields that no form of the options leaves out. -/
def requiredFields (options : Options) : List (String × Json) :=
  [("allow_binary_literals", .bool options.binaryLiterals),
    ("allow_hexadecimal_literals", .bool options.hexadecimalLiterals),
    ("allow_digit_separators", .bool options.digitSeparators)]

/-- The fields of written options. -/
def writtenFields (options : Options) : List (String × Json) :=
  options.requiredFields ++ [("panic_on_error", .bool options.haltOnMalformed)]

theorem toJson_eq (options : Options)
    : options.toJson = .ofFields options.writtenFields :=
  rfl

theorem isSound_toJson (options : Options)
    : options.toJson.IsSound := by
  rw [toJson_eq]
  exact Json.isSound_ofFields (by simp [writtenFields, requiredFields, Json.IsSound.bool])

/-- The required fields, with the last field or without it, are a form of the options. -/
theorem isGivenBy_of_extends (last : List (String × Json))
    (extended : json.Extends fieldNames (options.requiredFields ++ last))
    (lastGiven : last = [("panic_on_error", .bool options.haltOnMalformed)]
      ∨ last = [] ∧ options.haltOnMalformed = false)
    : options.IsGivenBy json where
  record := by
    refine extended.isRecord ?_
    rcases lastGiven with rfl | ⟨rfl, -⟩ <;> simp [requiredFields]
  binaryLiterals := (extended.gives_iff (by decide)).mpr (by simp [requiredFields])
  hexadecimalLiterals := (extended.gives_iff (by decide)).mpr (by simp [requiredFields])
  digitSeparators := (extended.gives_iff (by decide)).mpr (by simp [requiredFields])
  haltOnMalformed := by
    rcases lastGiven with rfl | ⟨rfl, absent⟩
    · exact .inl ((extended.gives_iff (by decide)).mpr (by simp))
    · refine .inr ⟨fun value given => ?_, absent⟩
      have member := (extended.gives_iff (by decide)).mp given
      simp [requiredFields] at member

theorem roundTrips
    : RoundTrips toJson ofJson? fun _ => True := by
  refine .of_json isSound_toJson (fun options _ => ?_) fun _ _ _ _ => trivial
  exact ofJson?_eq_some_iff.mpr
    (isGivenBy_of_extends _ (Json.extends_ofFields _) (.inl rfl))

end Options

-----------------------------------------------------------------------------------------
-- Faults
-----------------------------------------------------------------------------------------

theorem Json.isName_ofString (name : String)
    : (ofString name).IsName name :=
  ⟨_, Piece.text?_ofText _, .inl rfl⟩

theorem Json.isSound_ofString (name : String)
    : (ofString name).IsSound :=
  .string (Piece.isSound_ofText _)

theorem Fault.roundTrips
    : RoundTrips toJson ofJson? fun _ => True :=
  .of_json (fun fault => Json.isSound_ofString fault.code)
    (fun fault _ => ofJson?_eq_some_iff.mpr (Json.isName_ofString fault.code))
    fun _ _ _ _ => trivial

-----------------------------------------------------------------------------------------
-- Outcomes
-----------------------------------------------------------------------------------------

namespace Outcome

variable {outcome : Outcome Int} {json body : Json}

/-- The offsets fit 64 bits without a sign and the value fits 32 bits with one. -/
structure Fits (outcome : Outcome Int) : Prop where
  start : outcome.start < 2 ^ 64
  stop : ∀ stop ∈ outcome.stop?, stop < 2 ^ 64
  value : ∀ value ∈ outcome.value?, -2 ^ 31 ≤ value ∧ value < 2 ^ 31

/-- The fields of a written outcome. -/
def writtenFields : Outcome Int → List (String × Json)
  | complete start stop value =>
      [("start", .ofNat start), ("end", .ofNat stop), ("value", .ofInt value)]
  | absent start => [("start", .ofNat start)]
  | malformed start stop value fault =>
      [("start", .ofNat start), ("end", .ofNat stop), ("value", .ofInt value),
        ("code", fault.toJson)]

theorem toJson_eq (outcome : Outcome Int)
    : outcome.toJson Json.ofInt
      = .ofFields [(outcome.variant.1, .ofFields outcome.writtenFields)] := by
  cases outcome <;> rfl

theorem isTagged_toJson (outcome : Outcome Int)
    : (outcome.toJson Json.ofInt).IsTagged outcome.variant.1
        (.ofFields outcome.writtenFields) := by
  rw [toJson_eq]
  exact ⟨_, Json.Piece.text?_ofText _, rfl⟩

theorem isSound_toJson (outcome : Outcome Int)
    : (outcome.toJson Json.ofInt).IsSound := by
  rw [toJson_eq]
  have inner : (Json.ofFields outcome.writtenFields).IsSound := by
    refine Json.isSound_ofFields ?_
    cases outcome <;>
      simp [writtenFields, Fault.toJson, Json.isSound_ofNat, Json.isSound_ofInt,
        Json.isSound_ofString]
  exact Json.isSound_ofFields (by simpa using inner)

theorem IsGivenBy.fits {names : List String} (given : outcome.IsGivenBy names body)
    : outcome.Fits where
  start := given.start.2
  stop stop member := (given.stop stop member).2
  value value member := (given.value value member).2

theorem variant_snd (outcome : Outcome Int)
    : outcome.variant.2 = outcome.writtenFields.map Prod.fst := by
  cases outcome <;> rfl

theorem isGivenBy_of_extends (fits : outcome.Fits)
    (extended : body.Extends outcome.variant.2 outcome.writtenFields)
    : outcome.IsGivenBy outcome.variant.2 body := by
  have gives {name : String} {value : Json} (member : (name, value) ∈ outcome.writtenFields)
      : body.Gives outcome.variant.2 name value := by
    refine (extended.gives_iff ?_).mpr member
    rw [variant_snd]
    exact List.mem_map_of_mem member
  constructor
  case record =>
    refine extended.isRecord ?_
    rw [← variant_snd]
    exact nodup_of_mem_variants _ (variant_mem_variants outcome)
  case start => exact ⟨gives (by cases outcome <;> simp [writtenFields, Outcome.start]), fits.start⟩
  case stop =>
    intro stop member
    exact ⟨gives (by cases outcome <;> simp_all [writtenFields, stop?]), fits.stop stop member⟩
  case value =>
    intro value member
    exact ⟨gives (by cases outcome <;> simp_all [writtenFields, value?]), fits.value value member⟩
  case fault =>
    intro fault member
    refine ⟨fault.toJson, gives ?_, Json.isName_ofString fault.code⟩
    cases outcome <;> simp_all [writtenFields, fault?]

theorem roundTrips
    : RoundTrips (toJson Json.ofInt) (ofJson? Json.asInt32?) Fits := by
  refine .of_json isSound_toJson (fun outcome fits => ?_) fun json outcome sound found => ?_
  · exact (isGivenBy_of_extends fits (Json.extends_ofFields _)).ofJson? (isTagged_toJson outcome)
  · obtain ⟨body, -, given⟩ := exists_isGivenBy_of_ofJson? sound found
    exact given.fits

end Outcome

-----------------------------------------------------------------------------------------
-- Serialized forms
-----------------------------------------------------------------------------------------

-- Another field stands first, and there are blanks.
example
    : Decodes (Outcome.ofJson? Json.asInt32?)
        "\x7b \"Failure\": \x7b\"x\": [-1], \"start\": 3\x7d\x7d".toList (.absent 3) := by
  cbv

end Numeral
