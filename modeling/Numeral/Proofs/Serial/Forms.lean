import Numeral.Proofs.Json.Integers
import Numeral.Proofs.Json.Records
import Numeral.Serial

/-! The JSON forms of options, faults and outcomes, by what they give rather than by how they are
read. A form is one of a value if the value is read from it.
-/

namespace Numeral

open Json (asRecord?_eq_some_iff asRecord?_eq_map_some_iff)

namespace Json

variable {names : List String} {name : String} {json value : Json}

/-- An offset is given as it is written. -/
theorem gives_ofNat {n : Nat} (sound : json.IsSound) (gives : json.Gives names name value)
    (found : value.asWord64? = some n)
    : json.Gives names name (.ofNat n) ∧ n < 2 ^ 64 := by
  obtain ⟨rfl, small⟩ := (asWord64?_eq_some_iff (gives.isSound sound)).mp found
  exact ⟨gives, small⟩

theorem gives_ofInt {n : Int} (sound : json.IsSound) (gives : json.Gives names name value)
    (found : value.asInt32? = some n)
    : json.Gives names name (.ofInt n) ∧ -2 ^ 31 ≤ n ∧ n < 2 ^ 31 := by
  obtain ⟨rfl, least, greatest⟩ := (asInt32?_eq_some_iff (gives.isSound sound)).mp found
  exact ⟨gives, least, greatest⟩

theorem asBool?_eq_some_iff {value : Bool}
    : json.asBool? = some value ↔ json = .bool value := by
  cases json <;> simp [asBool?]

end Json

-----------------------------------------------------------------------------------------
-- Options
-----------------------------------------------------------------------------------------

namespace Options

variable {options : Options} {json : Json}

/-- The JSON gives the options by their names. The last may be missing, and is then false. -/
structure IsGivenBy (options : Options) (json : Json) : Prop where
  record : json.IsRecord fieldNames
  binaryLiterals
    : json.Gives fieldNames "allow_binary_literals" (.bool options.binaryLiterals)
  hexadecimalLiterals
    : json.Gives fieldNames "allow_hexadecimal_literals" (.bool options.hexadecimalLiterals)
  digitSeparators
    : json.Gives fieldNames "allow_digit_separators" (.bool options.digitSeparators)
  haltOnMalformed
    : json.Gives fieldNames "panic_on_error" (.bool options.haltOnMalformed)
      ∨ json.Lacks fieldNames "panic_on_error" ∧ options.haltOnMalformed = false

theorem nodup_fieldNames
    : fieldNames.Nodup := by
  decide

theorem asRecord?_fieldNames_eq_some_iff {binary hexadecimal separators : Json}
    {halt : Option Json}
    : json.asRecord? fieldNames = some [some binary, some hexadecimal, some separators, halt]
      ↔ json.IsRecord fieldNames
        ∧ json.Gives fieldNames "allow_binary_literals" binary
        ∧ json.Gives fieldNames "allow_hexadecimal_literals" hexadecimal
        ∧ json.Gives fieldNames "allow_digit_separators" separators
        ∧ json.Holds fieldNames "panic_on_error" halt := by
  rw [asRecord?_eq_some_iff nodup_fieldNames]
  refine and_congr_right fun record => ?_
  rw [← record.holds_some_iff nodup_fieldNames (by decide),
    ← record.holds_some_iff nodup_fieldNames (by decide),
    ← record.holds_some_iff nodup_fieldNames (by decide)]
  conv_lhs => rw [fieldNames]
  simp only [List.forall₂_cons, List.forall₂_nil_left_iff, and_true]
  rfl

theorem ofJson?_eq_some_iff
    : ofJson? json = some options ↔ options.IsGivenBy json := by
  constructor
  · intro found
    unfold ofJson? at found
    split at found
    next binary hexadecimal separators halt read =>
      obtain ⟨record, first, second, third, last⟩ := asRecord?_fieldNames_eq_some_iff.mp read
      simp only [Option.bind_eq_bind, Option.bind_eq_some_iff, Json.asBool?_eq_some_iff,
        Option.some.injEq] at found
      obtain ⟨_, rfl, _, rfl, _, rfl, value, found, rfl⟩ := found
      refine ⟨record, first, second, third, ?_⟩
      cases halt with
      | none =>
          obtain rfl : false = value := by simpa using found
          exact .inr ⟨Json.holds_none_iff.mp last, rfl⟩
      | some halt =>
          obtain rfl : halt = .bool value := found
          exact .inl ((last _).mp rfl)
    next => contradiction
  · rintro ⟨record, binary, hexadecimal, separators, gives | ⟨lacks, absent⟩⟩
    · have holds := (record.holds_some_iff nodup_fieldNames (by decide)).mpr gives
      have read := asRecord?_fieldNames_eq_some_iff.mpr
        ⟨record, binary, hexadecimal, separators, holds⟩
      rw [ofJson?, read]
      rfl
    · have read := asRecord?_fieldNames_eq_some_iff.mpr
        ⟨record, binary, hexadecimal, separators, Json.holds_none_iff.mpr lacks⟩
      rw [ofJson?, read]
      obtain ⟨_, _, _, _⟩ := options
      obtain rfl : _ = false := absent
      rfl

end Options

-----------------------------------------------------------------------------------------
-- Faults
-----------------------------------------------------------------------------------------

theorem Fault.ofCode?_eq_some_iff {fault : Fault} {code : String}
    : ofCode? code = some fault ↔ code = fault.code := by
  constructor
  · intro found
    unfold ofCode? at found
    have same := List.find?_some found
    exact (beq_iff_eq.mp same).symm
  · rintro rfl
    exact ofCode?_code fault

theorem Fault.ofJson?_eq_some_iff {fault : Fault} {json : Json}
    : ofJson? json = some fault ↔ json.IsName fault.code := by
  simp [ofJson?, Option.bind_eq_some_iff, ofCode?_eq_some_iff, Json.asName?_eq_some_iff]

-----------------------------------------------------------------------------------------
-- Outcomes
-----------------------------------------------------------------------------------------

namespace Outcome

variable {outcome : Outcome Int} {json body : Json}

/-- The tag of each kind of outcome, with the names of its fields. -/
def variants : List (String × List String) :=
  [("Success", ["start", "end", "value"]), ("Failure", ["start"]),
    ("Error", ["start", "end", "value", "code"])]

/-- The tag of the outcome, with the names of its fields. -/
def variant : Outcome Int → String × List String
  | complete .. => ("Success", ["start", "end", "value"])
  | absent _ => ("Failure", ["start"])
  | malformed .. => ("Error", ["start", "end", "value", "code"])

theorem nodup_of_mem_variants
    : ∀ variant ∈ variants, variant.2.Nodup := by
  decide

/-- No two kinds of outcome have one tag. -/
theorem eq_of_mem_variants
    : ∀ variant ∈ variants, ∀ variant' ∈ variants, variant.1 = variant'.1 → variant = variant' := by
  decide

theorem variant_mem_variants (outcome : Outcome Int)
    : outcome.variant ∈ variants := by
  cases outcome <;> simp [variants, variant]

/-- The record with the fields `names` gives what the outcome has by name, the offsets and the
value in their ranges.
-/
structure IsGivenBy (outcome : Outcome Int) (names : List String) (body : Json) : Prop where
  record : body.IsRecord names
  start : body.Gives names "start" (.ofNat outcome.start) ∧ outcome.start < 2 ^ 64
  stop : ∀ stop ∈ outcome.stop?, body.Gives names "end" (.ofNat stop) ∧ stop < 2 ^ 64
  value
    : ∀ value ∈ outcome.value?,
        body.Gives names "value" (.ofInt value) ∧ -2 ^ 31 ≤ value ∧ value < 2 ^ 31
  fault
    : ∀ fault ∈ outcome.fault?, ∃ code, body.Gives names "code" code ∧ code.IsName fault.code

theorem complete_isGivenBy {start stop value : Json} {a b : Nat} {c : Int} (sound : body.IsSound)
    (read : body.asRecord? ["start", "end", "value"] = some ([start, stop, value].map some))
    (isStart : start.asWord64? = some a) (isStop : stop.asWord64? = some b)
    (isValue : value.asInt32? = some c)
    : (complete a b c).IsGivenBy ["start", "end", "value"] body := by
  obtain ⟨record, gives⟩ := (asRecord?_eq_map_some_iff (by decide)).mp read
  simp only [List.forall₂_cons, List.forall₂_nil_left_iff, and_true] at gives
  obtain ⟨givesStart, givesStop, givesValue⟩ := gives
  refine ⟨record, Json.gives_ofNat sound givesStart isStart, ?_, ?_, ?_⟩
  · rintro _ ⟨⟩
    exact Json.gives_ofNat sound givesStop isStop
  · rintro _ ⟨⟩
    exact Json.gives_ofInt sound givesValue isValue
  · rintro _ ⟨⟩

theorem absent_isGivenBy {start : Json} {a : Nat} (sound : body.IsSound)
    (read : body.asRecord? ["start"] = some ([start].map some))
    (isStart : start.asWord64? = some a)
    : (absent a).IsGivenBy ["start"] body := by
  obtain ⟨record, gives⟩ := (asRecord?_eq_map_some_iff (by decide)).mp read
  simp only [List.forall₂_cons, List.forall₂_nil_left_iff, and_true] at gives
  refine ⟨record, Json.gives_ofNat sound gives isStart, ?_, ?_, ?_⟩ <;> rintro _ ⟨⟩

theorem malformed_isGivenBy {start stop value code : Json} {a b : Nat} {c : Int} {d : Fault}
    (sound : body.IsSound)
    (read : body.asRecord? ["start", "end", "value", "code"]
      = some ([start, stop, value, code].map some))
    (isStart : start.asWord64? = some a) (isStop : stop.asWord64? = some b)
    (isValue : value.asInt32? = some c) (isFault : Fault.ofJson? code = some d)
    : (malformed a b c d).IsGivenBy ["start", "end", "value", "code"] body := by
  obtain ⟨record, gives⟩ := (asRecord?_eq_map_some_iff (by decide)).mp read
  simp only [List.forall₂_cons, List.forall₂_nil_left_iff, and_true] at gives
  obtain ⟨givesStart, givesStop, givesValue, givesCode⟩ := gives
  refine ⟨record, Json.gives_ofNat sound givesStart isStart, ?_, ?_, ?_⟩
  · rintro _ ⟨⟩
    exact Json.gives_ofNat sound givesStop isStop
  · rintro _ ⟨⟩
    exact Json.gives_ofInt sound givesValue isValue
  · rintro _ ⟨⟩
    exact ⟨code, givesCode, Fault.ofJson?_eq_some_iff.mp isFault⟩

/-- An outcome that is read is given under the tag of its kind. -/
theorem exists_isGivenBy_of_ofJson? (sound : json.IsSound)
    (found : ofJson? Json.asInt32? json = some outcome)
    : ∃ body,
        json.IsTagged outcome.variant.1 body ∧ outcome.IsGivenBy outcome.variant.2 body := by
  unfold ofJson? at found
  split at found
  next body tag =>
    have tagged := Json.asTagged?_eq_some_iff.mp tag
    split at found
    next start stop value read =>
      simp only [Option.bind_eq_bind, Option.bind_eq_some_iff, Option.some.injEq] at found
      obtain ⟨a, isStart, b, isStop, c, isValue, rfl⟩ := found
      exact ⟨body, tagged, complete_isGivenBy (tagged.isSound sound) read isStart isStop isValue⟩
    next => contradiction
  next body tag =>
    have tagged := Json.asTagged?_eq_some_iff.mp tag
    split at found
    next start read =>
      obtain ⟨a, isStart, rfl⟩ := Option.map_eq_some_iff.mp found
      exact ⟨body, tagged, absent_isGivenBy (tagged.isSound sound) read isStart⟩
    next => contradiction
  next body tag =>
    have tagged := Json.asTagged?_eq_some_iff.mp tag
    split at found
    next start stop value code read =>
      simp only [Option.bind_eq_bind, Option.bind_eq_some_iff, Option.some.injEq] at found
      obtain ⟨a, isStart, b, isStop, c, isValue, d, isFault, rfl⟩ := found
      exact ⟨body, tagged,
        malformed_isGivenBy (tagged.isSound sound) read isStart isStop isValue isFault⟩
    next => contradiction
  next => contradiction

/-- What is given under the tag of its kind is read. -/
theorem IsGivenBy.ofJson? (tagged : json.IsTagged outcome.variant.1 body)
    (given : outcome.IsGivenBy outcome.variant.2 body)
    : ofJson? Json.asInt32? json = some outcome := by
  obtain ⟨record, start, stop, value, fault⟩ := given
  have tagged := Json.asTagged?_eq_some_iff.mpr tagged
  cases outcome with
  | complete a b c =>
      obtain ⟨givesStart, smallStart⟩ : _ ∧ a < 2 ^ 64 := start
      obtain ⟨givesStop, smallStop⟩ := stop b rfl
      obtain ⟨givesValue, least, greatest⟩ := value c rfl
      have read : body.asRecord? ["start", "end", "value"]
          = some ([.ofNat a, .ofNat b, .ofInt c].map some) :=
        (asRecord?_eq_map_some_iff (by decide)).mpr
          ⟨record, .cons givesStart (.cons givesStop (.cons givesValue .nil))⟩
      simp only [Outcome.ofJson?, tagged, variant, read, List.map_cons, List.map_nil,
        Json.asWord64?_ofNat smallStart, Json.asWord64?_ofNat smallStop,
        Json.asInt32?_ofInt least greatest]
      rfl
  | absent a =>
      obtain ⟨givesStart, smallStart⟩ : _ ∧ a < 2 ^ 64 := start
      have read : body.asRecord? ["start"] = some ([.ofNat a].map some) :=
        (asRecord?_eq_map_some_iff (by decide)).mpr ⟨record, .cons givesStart .nil⟩
      simp only [Outcome.ofJson?, tagged, variant, read, List.map_cons, List.map_nil,
        Json.asWord64?_ofNat smallStart]
      rfl
  | malformed a b c d =>
      obtain ⟨givesStart, smallStart⟩ : _ ∧ a < 2 ^ 64 := start
      obtain ⟨givesStop, smallStop⟩ := stop b rfl
      obtain ⟨givesValue, least, greatest⟩ := value c rfl
      obtain ⟨code, givesCode, named⟩ := fault d rfl
      have read : body.asRecord? ["start", "end", "value", "code"]
          = some ([.ofNat a, .ofNat b, .ofInt c, code].map some) :=
        (asRecord?_eq_map_some_iff (by decide)).mpr
          ⟨record, .cons givesStart (.cons givesStop (.cons givesValue (.cons givesCode .nil)))⟩
      simp only [Outcome.ofJson?, tagged, variant, read, List.map_cons, List.map_nil,
        Json.asWord64?_ofNat smallStart, Json.asWord64?_ofNat smallStop,
        Json.asInt32?_ofInt least greatest, Fault.ofJson?_eq_some_iff.mpr named]
      rfl

end Outcome

end Numeral
