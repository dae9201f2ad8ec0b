import Numeral.Proofs.Serial.Forms

/-! JSON from which nothing is read. Each way for a form to be wrong contradicts what a value that
was read is known to be given by.
-/

namespace Numeral

open Json (isNamed)

namespace Options

variable {options : Options} {json : Json}

/-- A field other than the last is missing. -/
def IsIncomplete (json : Json) : Prop :=
  ∃ name ∈ ["allow_binary_literals", "allow_hexadecimal_literals", "allow_digit_separators"],
    json.Lacks fieldNames name

theorem not_isIncomplete (given : options.IsGivenBy json)
    : ¬ IsIncomplete json := by
  rintro ⟨name, required, lacks⟩
  simp only [List.mem_cons, List.not_mem_nil, or_false] at required
  rcases required with rfl | rfl | rfl
  · exact lacks _ given.binaryLiterals
  · exact lacks _ given.hexadecimalLiterals
  · exact lacks _ given.digitSeparators

/-- Without the last field it is false. -/
theorem haltOnMalformed_of_lacks (given : options.IsGivenBy json)
    (lacks : json.Lacks fieldNames "panic_on_error")
    : options.haltOnMalformed = false := by
  rcases given.haltOnMalformed with gives | ⟨-, absent⟩
  · exact (lacks _ gives).elim
  · exact absent

end Options

namespace Outcome

/-- JSON that is no form of an outcome: under one of the tags a field is missing, an offset or the
value is out of its range or the code is none; or a tag is unknown or one of several.
-/
inductive IsMistaken : Json → Prop
  | missing {json body variant name} (known : variant ∈ variants)
    (tagged : json.IsTagged variant.1 body) (required : name ∈ variant.2)
    (lacks : body.Lacks variant.2 name)
    : IsMistaken json
  | offset {json body variant name offset} (known : variant ∈ variants)
    (tagged : json.IsTagged variant.1 body) (required : name ∈ variant.2)
    (isOffset : name = "start" ∨ name = "end") (gives : body.Gives variant.2 name offset)
    (outside : ∀ n : Nat, offset = .ofNat n → 2 ^ 64 ≤ n)
    : IsMistaken json
  | value {json body variant value} (known : variant ∈ variants)
    (tagged : json.IsTagged variant.1 body) (required : "value" ∈ variant.2)
    (gives : body.Gives variant.2 "value" value)
    (outside : ∀ n : Int, value = .ofInt n → n < -2 ^ 31 ∨ 2 ^ 31 ≤ n)
    : IsMistaken json
  | code {json body variant code} (known : variant ∈ variants)
    (tagged : json.IsTagged variant.1 body) (required : "code" ∈ variant.2)
    (gives : body.Gives variant.2 "code" code) (unknown : ∀ fault : Fault, ¬ code.IsName fault.code)
    : IsMistaken json
  | unknownTag {fields field} (member : field ∈ fields)
    (unknown : ∀ variant ∈ variants, isNamed variant.1 field = false)
    : IsMistaken (.object fields)
  | secondTag {fields} (several : 2 ≤ fields.length)
    : IsMistaken (.object fields)

variable {outcome : Outcome Int} {json body : Json} {variant : String × List String}
  {name : String}

/-- A tag tells which kind of outcome is read and what gives it. -/
theorem isGivenBy_of_isTagged (sound : json.IsSound)
    (found : ofJson? Json.asInt32? json = some outcome) (known : variant ∈ variants)
    (tagged : json.IsTagged variant.1 body)
    : outcome.variant = variant ∧ outcome.IsGivenBy variant.2 body := by
  obtain ⟨other, otherTagged, given⟩ := exists_isGivenBy_of_ofJson? sound found
  obtain ⟨sameTag, rfl⟩ := otherTagged.unique tagged
  have same := eq_of_mem_variants _ (variant_mem_variants outcome) _ known sameTag
  exact ⟨same, same ▸ given⟩

theorem exists_offset (given : outcome.IsGivenBy outcome.variant.2 body)
    (required : name ∈ outcome.variant.2) (isOffset : name = "start" ∨ name = "end")
    : ∃ n < 2 ^ 64, body.Gives outcome.variant.2 name (.ofNat n) := by
  rcases isOffset with rfl | rfl
  · exact ⟨outcome.start, given.start.2, given.start.1⟩
  · obtain ⟨stop, member⟩ : ∃ stop, stop ∈ outcome.stop? := by
      cases outcome <;> simp_all [Outcome.variant, stop?]
    exact ⟨stop, (given.stop stop member).2, (given.stop stop member).1⟩

theorem exists_value (given : outcome.IsGivenBy outcome.variant.2 body)
    (required : "value" ∈ outcome.variant.2)
    : ∃ n, (-2 ^ 31 ≤ n ∧ n < 2 ^ 31) ∧ body.Gives outcome.variant.2 "value" (.ofInt n) := by
  obtain ⟨value, member⟩ : ∃ value, value ∈ outcome.value? := by
    cases outcome <;> simp_all [Outcome.variant, value?]
  exact ⟨value, (given.value value member).2, (given.value value member).1⟩

theorem exists_code (given : outcome.IsGivenBy outcome.variant.2 body)
    (required : "code" ∈ outcome.variant.2)
    : ∃ fault : Fault, ∃ code,
        body.Gives outcome.variant.2 "code" code ∧ code.IsName fault.code := by
  obtain ⟨fault, member⟩ : ∃ fault, fault ∈ outcome.fault? := by
    cases outcome <;> simp_all [Outcome.variant, fault?]
  exact ⟨fault, given.fault fault member⟩

/-- What gives an outcome gives all the fields of its kind. -/
theorem exists_gives (given : outcome.IsGivenBy outcome.variant.2 body)
    (required : name ∈ outcome.variant.2)
    : ∃ value, body.Gives outcome.variant.2 name value := by
  have named : (name = "start" ∨ name = "end") ∨ name = "value" ∨ name = "code" := by
    cases outcome <;>
      simp only [Outcome.variant, List.mem_cons, List.not_mem_nil, or_false] at required <;> tauto
  rcases named with isOffset | rfl | rfl
  · obtain ⟨n, -, gives⟩ := exists_offset given required isOffset
    exact ⟨_, gives⟩
  · obtain ⟨n, -, gives⟩ := exists_value given required
    exact ⟨_, gives⟩
  · obtain ⟨fault, code, gives, -⟩ := exists_code given required
    exact ⟨_, gives⟩

/-- Nothing is read from mistaken JSON. -/
theorem not_isMistaken (sound : json.IsSound) (found : ofJson? Json.asInt32? json = some outcome)
    : ¬ IsMistaken json := by
  have distinct := nodup_of_mem_variants _ (variant_mem_variants outcome)
  intro mistaken
  cases mistaken with
  | missing known tagged required lacks =>
      obtain ⟨rfl, given⟩ := isGivenBy_of_isTagged sound found known tagged
      obtain ⟨value, gives⟩ := exists_gives given required
      exact lacks value gives
  | offset known tagged required isOffset gives outside =>
      obtain ⟨rfl, given⟩ := isGivenBy_of_isTagged sound found known tagged
      obtain ⟨n, small, right⟩ := exists_offset given required isOffset
      have large := outside n (given.record.gives_unique distinct required gives right)
      omega
  | value known tagged required gives outside =>
      obtain ⟨rfl, given⟩ := isGivenBy_of_isTagged sound found known tagged
      obtain ⟨n, small, right⟩ := exists_value given required
      have large := outside n (given.record.gives_unique distinct required gives right)
      omega
  | code known tagged required gives unknown =>
      obtain ⟨rfl, given⟩ := isGivenBy_of_isTagged sound found known tagged
      obtain ⟨fault, code, right, named⟩ := exists_code given required
      obtain rfl := given.record.gives_unique distinct required gives right
      exact unknown fault named
  | unknownTag member unknown =>
      obtain ⟨body, ⟨pieces, named, same⟩, -⟩ := exists_isGivenBy_of_ofJson? sound found
      cases same
      obtain rfl := List.mem_singleton.mp member
      have other := unknown _ (variant_mem_variants outcome)
      simp [isNamed, named] at other
  | secondTag several =>
      obtain ⟨body, ⟨pieces, -, same⟩, -⟩ := exists_isGivenBy_of_ofJson? sound found
      cases same
      contradiction

end Outcome

end Numeral
