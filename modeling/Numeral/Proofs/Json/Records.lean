import Mathlib.Data.List.Forall2
import Mathlib.Data.List.Nodup
import Numeral.Json.Decode
import Numeral.Proofs.Json.Values

/-! Records by what they give for each of their fields. An object gives a field under its name,
wherever it stands and whatever stands beside it, and an array gives it at its place.
-/

namespace Numeral.Json

variable {names : List String} {name : String} {json value : Json}
  {fields : List (List Piece × Json)} {texts : List (List Char × Json)} {items : List Json}
  {given : Option Json} {values : List (Option Json)} {known : List (String × Json)}

/-- Whether the name of the field is the text `name`. -/
def isNamed (name : String) (field : List Piece × Json) : Bool :=
  Piece.text? field.1 == some name.toList

/-- A record with the fields `names` gives this value for the field `name`. -/
def Gives (names : List String) (json : Json) (name : String) (value : Json) : Prop :=
  match json with
  | .object fields => ∃ field ∈ fields, isNamed name field = true ∧ field.2 = value
  | .array items => ∃ i : Nat, names[i]? = some name ∧ items[i]? = some value
  | _ => False

/-- A record with the fields `names` is an object whose names are all texts and none of `names`
twice, or an array with no more items than `names`.
-/
def IsRecord (names : List String) : Json → Prop
  | .object fields =>
      (∀ field ∈ fields, Piece.text? field.1 ≠ none)
      ∧ ∀ name ∈ names, (fields.filter (isNamed name)).length ≤ 1
  | .array items => items.length ≤ names.length
  | _ => False

/-- The record gives no value for the field `name`. -/
def Lacks (names : List String) (json : Json) (name : String) : Prop :=
  ∀ value, ¬ json.Gives names name value

/-- All that the record gives for the field `name` is `given`. -/
def Holds (names : List String) (json : Json) (name : String) (given : Option Json) : Prop :=
  ∀ value, given = some value ↔ json.Gives names name value

-----------------------------------------------------------------------------------------
-- Objects
-----------------------------------------------------------------------------------------

theorem mapM_eq_some_iff {α β : Type} {f : α → Option β} {xs : List α} {ys : List β}
    : xs.mapM f = some ys ↔ List.Forall₂ (fun x y => f x = some y) xs ys := by
  induction xs generalizing ys with
  | nil => cases ys <;> simp
  | cons x others ih =>
      cases ys with
      | nil => simp [List.mapM_cons, Option.bind_eq_some_iff]
      | cons y more => simp [List.mapM_cons, Option.bind_eq_some_iff, ih]

theorem textNamed?_eq_some_iff {field : List Piece × Json} {text : List Char × Json}
    : textNamed? field = some text ↔ Piece.text? field.1 = some text.1 ∧ field.2 = text.2 := by
  simp [textNamed?, Prod.ext_iff]

theorem exists_mapM_textNamed?
    : (∃ texts, fields.mapM textNamed? = some texts)
      ↔ ∀ field ∈ fields, Piece.text? field.1 ≠ none := by
  simp only [mapM_eq_some_iff]
  induction fields with
  | nil => simp
  | cons field others ih =>
      rw [List.forall_mem_cons, ← ih]
      constructor
      · rintro ⟨_, same⟩
        obtain ⟨text, more, first, later, rfl⟩ := List.forall₂_cons_left_iff.mp same
        exact ⟨by simp [(textNamed?_eq_some_iff.mp first).1], more, later⟩
      · rintro ⟨named, more, later⟩
        obtain ⟨text, same⟩ := Option.ne_none_iff_exists'.mp named
        exact ⟨_, .cons (textNamed?_eq_some_iff.mpr ⟨same, rfl⟩ : _ = some (text, _)) later⟩

theorem fieldsNamed_of_mapM_textNamed? (named : fields.mapM textNamed? = some texts)
    : fieldsNamed name texts = (fields.filter (isNamed name)).map Prod.snd := by
  rw [mapM_eq_some_iff] at named
  induction named with
  | nil => rfl
  | @cons field text others more first later ih =>
      obtain ⟨same, value⟩ := textNamed?_eq_some_iff.mp first
      have alike : isNamed name field = (text.1 == name.toList) := by
        rw [isNamed, same, Option.some_beq_some]
      rw [fieldsNamed] at ih ⊢
      rw [List.filter_cons, List.filter_cons, alike]
      split
      · rw [List.map_cons, List.map_cons, ih, value]
      · exact ih

theorem fieldNamed?_eq_some_iff
    : fieldNamed? texts name = some given
      ↔ (fieldsNamed name texts).length ≤ 1 ∧ (fieldsNamed name texts).head? = given := by
  unfold fieldNamed?
  split
  next none => simp [none]
  next value one => simp [one]
  next notNone notOne =>
    simp only [reduceCtorEq, false_iff, not_and]
    intro few
    match same : fieldsNamed name texts, few with
    | [], _ => contradiction
    | [value], _ => exact (notOne value same).elim

/-- Of at most one element the first is the only one. -/
theorem head?_eq_iff {α : Type} {xs : List α} {first : Option α} (few : xs.length ≤ 1)
    : xs.head? = first ↔ ∀ x, first = some x ↔ x ∈ xs := by
  have only (x : α) : xs.head? = some x ↔ x ∈ xs := by
    match xs, few with
    | [], _ => simp
    | [y], _ => simp [eq_comm]
  rw [eq_comm, Option.ext_iff]
  simp only [only]

theorem gives_object_iff
    : (object fields).Gives names name value
      ↔ value ∈ (fields.filter (isNamed name)).map Prod.snd := by
  simp only [Gives, List.mem_map, List.mem_filter, and_assoc]

theorem asRecord?_object_eq_some_iff
    : (object fields).asRecord? names = some values
      ↔ (object fields).IsRecord names
        ∧ List.Forall₂ ((object fields).Holds names) names values := by
  have field {texts} (named : fields.mapM textNamed? = some texts) (name : String)
      (given : Option Json)
      : fieldNamed? texts name = some given
        ↔ (fields.filter (isNamed name)).length ≤ 1
          ∧ (object fields).Holds names name given := by
    rw [fieldNamed?_eq_some_iff, fieldsNamed_of_mapM_textNamed? named, List.length_map]
    simp only [Holds, gives_object_iff]
    exact and_congr_right fun few => head?_eq_iff (by rwa [List.length_map])
  simp only [asRecord?, Option.bind_eq_some_iff, IsRecord, ← exists_mapM_textNamed?]
  constructor
  · rintro ⟨texts, named, found⟩
    simp only [mapM_eq_some_iff, field named, List.forall₂_and_left] at found
    exact ⟨⟨⟨texts, named⟩, found.1⟩, found.2⟩
  · rintro ⟨⟨⟨texts, named⟩, once⟩, each⟩
    refine ⟨texts, named, ?_⟩
    simp only [mapM_eq_some_iff, field named, List.forall₂_and_left]
    exact ⟨once, each⟩

-----------------------------------------------------------------------------------------
-- Arrays
-----------------------------------------------------------------------------------------

/-- What an array leaves out is missing. -/
theorem getElem?_padded {n i : Nat} (few : items.length ≤ n) (inside : i < n)
    : (items.map some ++ List.replicate (n - items.length) none)[i]? = some items[i]? := by
  rw [List.getElem?_append, List.length_map]
  split
  next there => simp [there]
  next missing =>
    rw [List.getElem?_replicate, if_pos (by omega), List.getElem?_eq_none (by omega)]

theorem padded_eq_iff {n : Nat} (few : items.length ≤ n)
    : items.map some ++ List.replicate (n - items.length) none = values
      ↔ n = values.length ∧ ∀ i, ∀ inside : i < values.length, values[i] = items[i]? := by
  have length : (items.map some ++ List.replicate (n - items.length) none).length = n := by
    rw [List.length_append, List.length_map, List.length_replicate]
    omega
  constructor
  · rintro rfl
    refine ⟨length.symm, fun i inside => Option.some.inj ?_⟩
    rw [← List.getElem?_eq_getElem inside, getElem?_padded few (by omega)]
  · rintro ⟨rfl, each⟩
    refine List.ext_getElem length fun i _ inside => Option.some.inj ?_
    rw [← List.getElem?_eq_getElem, getElem?_padded few inside, each i inside]

theorem gives_array_iff (distinct : names.Nodup) {i : Nat} (inside : i < names.length)
    : (array items).Gives names names[i] value ↔ items[i]? = some value := by
  constructor
  · rintro ⟨j, place, item⟩
    obtain ⟨there, same⟩ := List.getElem?_eq_some_iff.mp place
    obtain rfl := distinct.getElem_inj_iff.mp same
    exact item
  · exact fun item => ⟨i, List.getElem?_eq_getElem inside, item⟩

theorem asRecord?_array_eq_some_iff (distinct : names.Nodup)
    : (array items).asRecord? names = some values
      ↔ (array items).IsRecord names
        ∧ List.Forall₂ ((array items).Holds names) names values := by
  rw [asRecord?, IsRecord]
  split
  next few =>
    rw [Option.some.injEq, padded_eq_iff few, List.forall₂_iff_get, and_iff_right few]
    refine and_congr_right fun same => forall_congr' fun i => ?_
    have inside : i < values.length → i < names.length := by omega
    constructor
    · intro each here there value
      rw [List.get_eq_getElem, List.get_eq_getElem, gives_array_iff distinct here, each there]
    · intro each there
      refine Option.ext fun value => ?_
      rw [← gives_array_iff distinct (inside there)]
      exact each (inside there) there value
  next many => simp [many]

-----------------------------------------------------------------------------------------
-- Records
-----------------------------------------------------------------------------------------

/-- A record does not give two values for a field. -/
theorem IsRecord.gives_unique {value' : Json} (record : json.IsRecord names)
    (distinct : names.Nodup) (member : name ∈ names) (first : json.Gives names name value)
    (second : json.Gives names name value')
    : value = value' := by
  cases json with
  | object fields =>
      have once : ((fields.filter (isNamed name)).map Prod.snd).length ≤ 1 := by
        rw [List.length_map]
        exact record.2 name member
      have only := (head?_eq_iff once).mp rfl
      rw [gives_object_iff, ← only] at first second
      exact Option.some.inj (first.symm.trans second)
  | array items =>
      obtain ⟨i, inside, rfl⟩ := List.getElem_of_mem member
      rw [gives_array_iff distinct inside] at first second
      exact Option.some.inj (first.symm.trans second)
  | _ => exact record.elim

theorem IsRecord.holds_some_iff (record : json.IsRecord names) (distinct : names.Nodup)
    (member : name ∈ names)
    : json.Holds names name (some value) ↔ json.Gives names name value := by
  constructor
  · exact fun only => (only value).mp rfl
  · rintro gives other
    refine ⟨fun same => Option.some.inj same ▸ gives, fun second => ?_⟩
    rw [record.gives_unique distinct member gives second]

theorem holds_none_iff
    : json.Holds names name none ↔ json.Lacks names name := by
  simp [Holds, Lacks]

/-- What is read of a record is what it holds. -/
theorem asRecord?_eq_some_iff (distinct : names.Nodup)
    : json.asRecord? names = some values
      ↔ json.IsRecord names ∧ List.Forall₂ (json.Holds names) names values := by
  cases json with
  | object fields => exact asRecord?_object_eq_some_iff
  | array items => exact asRecord?_array_eq_some_iff distinct
  | _ => simp [asRecord?, IsRecord]

theorem asRecord?_eq_map_some_iff (distinct : names.Nodup) {given : List Json}
    : json.asRecord? names = some (given.map some)
      ↔ json.IsRecord names ∧ List.Forall₂ (json.Gives names) names given := by
  rw [asRecord?_eq_some_iff distinct, List.forall₂_map_right_iff]
  refine and_congr_right fun record => ?_
  rw [List.forall₂_iff_get, List.forall₂_iff_get]
  refine and_congr_right fun _ => ?_
  refine forall_congr' fun i => forall_congr' fun here => forall_congr' fun _ => ?_
  exact record.holds_some_iff distinct (List.get_mem names ⟨i, here⟩)

/-- The values of a sound record are sound. -/
theorem Gives.isSound (sound : json.IsSound) (gives : json.Gives names name value)
    : value.IsSound := by
  cases sound with
  | array each =>
      obtain ⟨i, -, item⟩ := gives
      exact each _ (List.mem_of_getElem? item)
  | object named each =>
      obtain ⟨field, member, -, rfl⟩ := gives
      exact each field member
  | _ => exact gives.elim

-----------------------------------------------------------------------------------------
-- Objects with other fields beside
-----------------------------------------------------------------------------------------

/-- The field as it stands in an object. -/
def writtenField (field : String × Json) : List Piece × Json :=
  (Piece.ofText field.1.toList, field.2)

/-- The object has the fields of `known`, in any order, and beside them only fields whose names are
other texts than `names`.
-/
def Extends (names : List String) (known : List (String × Json)) : Json → Prop
  | .object fields =>
      ∃ others,
        fields.Perm (known.map writtenField ++ others)
        ∧ ∀ field ∈ others,
            Piece.text? field.1 ≠ none ∧ ∀ name ∈ names, isNamed name field = false
  | _ => False

theorem isNamed_writtenField (field : String × Json)
    : isNamed name (writtenField field) = (field.1 == name) := by
  rw [isNamed, writtenField, Piece.text?_ofText, Option.some_beq_some, Bool.eq_iff_iff, beq_iff_eq,
    beq_iff_eq, String.toList_inj]

theorem length_filter_writtenField (distinct : (known.map Prod.fst).Nodup) (name : String)
    : ((known.map writtenField).filter (isNamed name)).length ≤ 1 := by
  have once := List.nodup_iff_count_le_one.mp distinct name
  rw [List.count_eq_countP, List.countP_map, List.countP_eq_length_filter] at once
  rw [List.filter_map, List.length_map]
  simpa only [Function.comp_def, isNamed_writtenField] using once

/-- What an object with other fields gives is what the known fields are. -/
theorem Extends.gives_iff (extended : json.Extends names known) (member : name ∈ names)
    : json.Gives names name value ↔ (name, value) ∈ known := by
  cases json with
  | object fields =>
      obtain ⟨others, perm, apart⟩ := extended
      simp only [Gives, perm.mem_iff, List.mem_append, List.mem_map]
      constructor
      · rintro ⟨_, ⟨field, inside, rfl⟩ | outside, named, rfl⟩
        · rw [isNamed_writtenField, beq_iff_eq] at named
          exact named ▸ inside
        · rw [(apart _ outside).2 name member] at named
          contradiction
      · intro inside
        exact ⟨_, .inl ⟨_, inside, rfl⟩, by simp [isNamed_writtenField], rfl⟩
  | _ => exact extended.elim

theorem Extends.isRecord (extended : json.Extends names known)
    (distinct : (known.map Prod.fst).Nodup)
    : json.IsRecord names := by
  cases json with
  | object fields =>
      obtain ⟨others, perm, apart⟩ := extended
      refine ⟨fun field member => ?_, fun name member => ?_⟩
      · rcases List.mem_append.mp (perm.mem_iff.mp member) with inside | outside
        · obtain ⟨field, -, rfl⟩ := List.mem_map.mp inside
          simp [writtenField]
        · exact (apart field outside).1
      · have none : others.filter (isNamed name) = [] := by
          rw [List.filter_eq_nil_iff]
          intro field outside
          simp [(apart field outside).2 name member]
        rw [(perm.filter _).length_eq, List.filter_append, none, List.append_nil]
        exact length_filter_writtenField distinct name
  | _ => exact extended.elim

theorem extends_ofFields (known : List (String × Json))
    : (ofFields known).Extends names known :=
  ⟨[], by rw [List.append_nil]; rfl, by simp⟩

theorem isSound_ofFields (sound : ∀ field ∈ known, field.2.IsSound)
    : (ofFields known).IsSound := by
  refine .object (List.forall_mem_map.mpr fun field _ => ?_)
    (List.forall_mem_map.mpr fun field member => ?_)
  · exact Piece.isSound_ofText _
  · exact sound field member

-----------------------------------------------------------------------------------------
-- Names
-----------------------------------------------------------------------------------------

/-- The text of a string, or the only field of an object, which is null, has this name. -/
def IsName (json : Json) (name : String) : Prop :=
  ∃ pieces,
    Piece.text? pieces = some name.toList
    ∧ (json = .string pieces ∨ json = .object [(pieces, .null)])

/-- The value is under this name: it is the only field of an object. -/
def IsTagged (json : Json) (name : String) (value : Json) : Prop :=
  ∃ pieces, Piece.text? pieces = some name.toList ∧ json = .object [(pieces, value)]

/-- An object has one tag. -/
theorem IsTagged.unique {name' : String} {value' : Json} (first : json.IsTagged name value)
    (second : json.IsTagged name' value')
    : name = name' ∧ value = value' := by
  obtain ⟨pieces, named, rfl⟩ := first
  obtain ⟨_, named', same⟩ := second
  cases same
  exact ⟨String.toList_inj.mp (Option.some.inj (named.symm.trans named')), rfl⟩

theorem IsTagged.isSound (sound : json.IsSound) (tagged : json.IsTagged name value)
    : value.IsSound := by
  obtain ⟨pieces, -, rfl⟩ := tagged
  cases sound with
  | object names values => exact values _ (List.mem_singleton_self _)

theorem text?_map_ofList_eq_some_iff {pieces : List Piece}
    : (Piece.text? pieces).map String.ofList = some name
      ↔ Piece.text? pieces = some name.toList := by
  rw [Option.map_eq_some_iff]
  constructor
  · rintro ⟨text, named, rfl⟩
    rw [named, String.toList_ofList]
  · exact fun named => ⟨_, named, String.ofList_toList⟩

theorem asName?_eq_some_iff
    : json.asName? = some name ↔ json.IsName name := by
  unfold asName?
  split
  next pieces =>
    rw [text?_map_ofList_eq_some_iff]
    constructor
    · exact fun named => ⟨pieces, named, .inr rfl⟩
    · rintro ⟨_, named, same | same⟩ <;> cases same
      exact named
  next noTag =>
    cases json with
    | string pieces =>
        rw [asText?, text?_map_ofList_eq_some_iff]
        constructor
        · exact fun named => ⟨pieces, named, .inl rfl⟩
        · rintro ⟨_, named, same | same⟩ <;> cases same
          exact named
    | _ =>
        simp only [asText?, Option.map_none, reduceCtorEq, false_iff]
        rintro ⟨_, named, same | same⟩
        · cases same
        · exact noTag _ same

theorem asTagged?_eq_some_iff
    : json.asTagged? = some (name, value) ↔ json.IsTagged name value := by
  unfold asTagged?
  split
  next pieces body =>
    constructor
    · intro found
      obtain ⟨text, named, same⟩ := Option.map_eq_some_iff.mp found
      obtain ⟨rfl, rfl⟩ := Prod.mk.inj same
      exact ⟨pieces, by rw [named, String.toList_ofList], rfl⟩
    · rintro ⟨_, named, same⟩
      cases same
      rw [named, Option.map_some, String.ofList_toList]
  next noTag =>
    simp only [reduceCtorEq, false_iff]
    rintro ⟨pieces, -, same⟩
    exact noTag _ _ same

end Numeral.Json
