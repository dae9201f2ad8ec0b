import Numeral.Json.Decode
import Numeral.Options
import Numeral.Outcome
import Numeral.Radix

/-! The JSON forms of options, faults, radices and outcomes. -/

namespace Numeral

namespace Options

def fieldNames : List String :=
  ["allow_binary_literals", "allow_hexadecimal_literals", "allow_digit_separators",
    "panic_on_error"]

def toJson (options : Options) : Json :=
  .ofFields
    (fieldNames.zip
      [.bool options.binaryLiterals, .bool options.hexadecimalLiterals,
        .bool options.digitSeparators, .bool options.haltOnMalformed])

/-- The last field may be missing, and is then false. -/
def ofJson? (json : Json) : Option Options :=
  match json.asRecord? fieldNames with
  | some [some binary, some hexadecimal, some separators, halt] => do
      some
        { binaryLiterals := ← binary.asBool?
          hexadecimalLiterals := ← hexadecimal.asBool?
          digitSeparators := ← separators.asBool?
          haltOnMalformed := ← (halt.getD (.bool false)).asBool? }
  | _ => none

end Options

namespace Fault

def toJson (fault : Fault) : Json :=
  .ofString fault.code

def ofJson? (json : Json) : Option Fault :=
  json.asName?.bind ofCode?

end Fault

namespace Radix

def toJson (radix : Radix) : Json :=
  .ofString radix.name

def ofJson? (json : Json) : Option Radix :=
  json.asName?.bind ofName?

end Radix

namespace Outcome

variable {α : Type}

/-- An outcome under the name of its kind, with `valueToJson` for its value. -/
def toJson (valueToJson : α → Json) : Outcome α → Json
  | complete start stop value =>
      .ofFields [("Success", .ofFields
        [("start", .ofNat start), ("end", .ofNat stop), ("value", valueToJson value)])]
  | absent start => .ofFields [("Failure", .ofFields [("start", .ofNat start)])]
  | malformed start stop value fault =>
      .ofFields [("Error", .ofFields
        [("start", .ofNat start), ("end", .ofNat stop), ("value", valueToJson value),
          ("code", fault.toJson)])]

def ofJson? (valueOfJson? : Json → Option α) (json : Json) : Option (Outcome α) :=
  match json.asTagged? with
  | some ("Success", body) =>
      match body.asRecord? ["start", "end", "value"] with
      | some [some start, some stop, some value] => do
          some (.complete (← start.asWord64?) (← stop.asWord64?) (← valueOfJson? value))
      | _ => none
  | some ("Failure", body) =>
      match body.asRecord? ["start"] with
      | some [some start] => start.asWord64?.map .absent
      | _ => none
  | some ("Error", body) =>
      match body.asRecord? ["start", "end", "value", "code"] with
      | some [some start, some stop, some value, some fault] => do
          some (.malformed (← start.asWord64?) (← stop.asWord64?) (← valueOfJson? value)
            (← Fault.ofJson? fault))
      | _ => none
  | _ => none

end Outcome

end Numeral
