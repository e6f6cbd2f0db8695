import Frontend.Json.Reader

/-!
# Typed data in JSON

A decoder turns a value into typed data. It is given the room left: how many more arrays and objects
may be open at once. A record is an object with its fields in any order, where fields of other names
are passed over and no field occurs twice, or an array of its fields in order. A variant without a
payload is its tag as a string, or an object from the tag to an empty value; one with a payload is
an object from the tag to the payload. A `Dialect` says which values are empty, and whether an array
may be longer than the record.
-/

set_option autoImplicit false

namespace Frontend.Json

/-- Turns a value into typed data, with the number of levels that may still be opened. -/
abbrev Decoder (α : Type) := Nat → Json → Option α

/-- How many arrays and objects may be open at once in a text. -/
def nestingLimit : Nat := 127

/-- Typed data from a text. -/
def decodeText {α : Type} (decoder : Decoder α) (text : String) : Option α :=
  (read text.toList).bind (decoder nestingLimit)

/-! ## Single values -/

/-- A truth value. -/
def asBool : Decoder Bool
  | _, .bool value => some value
  | _, _ => none

/-- A string. -/
def asText : Decoder String
  | _, .string content => content
  | _, _ => none

/-- An integer from `least` up to, and without, `bound`. -/
def asBetween (least bound : Int) : Json → Option Int
  | .integer value => if least ≤ value ∧ value < bound then some value else none
  | _ => none

/-- An unsigned 64-bit word. -/
def asWord64 : Decoder UInt64 :=
  fun _ j => (asBetween 0 UInt64.size j).map fun i => UInt64.ofNat i.toNat

/-- An unsigned 32-bit word. -/
def asWord32 : Decoder UInt32 :=
  fun _ j => (asBetween 0 UInt32.size j).map fun i => UInt32.ofNat i.toNat

/-- A signed 64-bit word. -/
def asInt64 : Decoder Int64 := fun _ j =>
  (asBetween (-Text.int64Bound) Text.int64Bound j).map Int64.ofInt

/-- A value or null. -/
def asOption {α : Type} (decoder : Decoder α) : Decoder (Option α)
  | _, .null => some none
  | room, j => (decoder room j).map some

/-! ## Lists, records and variants -/

/-- The items of an array. -/
def asList {α : Type} (item : Decoder α) : Decoder (List α)
  | room + 1, .array items => items.mapM (item room)
  | _, _ => none

/-- What formats of typed data differ in. -/
structure Dialect where
  /-- What may stand in place of the payload of a variant that has none. -/
  isUnit : Json → Bool
  /-- Whether an array in place of a record may go on after the last field. What follows is passed
  over. -/
  extraItems : Bool

/-- In JSON null stands in place of a payload, and an array ends with the last field at the
latest. -/
def dialect : Dialect where
  isUnit
    | .null => true
    | _ => false
  extraItems := false

/-- The fields with the given names, in that order, each missing or present. -/
def fields? (d : Dialect) (names : List String) : Json → Option (List (Option Json))
  | .array items =>
    if items.length ≤ names.length ∨ d.extraItems then
      some ((items.take names.length).map some
        ++ List.replicate (names.length - items.length) none)
    else none
  | .object members =>
    match members.mapM fun (key, value) => key.map fun name => (name, value) with
    | none => none
    | some members =>
      if names.all fun name => (members.filter (·.1 == name)).length ≤ 1 then
        some (names.map fun name => (members.find? (·.1 == name)).map (·.2))
      else none
  | _ => none

/-- A record in a dialect: its fields are read by `build`, one level further in. -/
def asRecordIn {α : Type} (d : Dialect) (names : List String)
    (build : Nat → List (Option Json) → Option α) : Decoder α
  | 0, _ => none
  | room + 1, j => (j.fields? d names).bind (build room)

/-- A record in JSON. -/
def asRecord {α : Type} (names : List String) (build : Nat → List (Option Json) → Option α) :
    Decoder α :=
  asRecordIn dialect names build

/-- The tag and the payload of a variant that has one. -/
def payload? : Json → Option (String × Json)
  | .object [(some tag, payload)] => some (tag, payload)
  | _ => none

/-- The tag of a variant without a payload. -/
def tag? (d : Dialect) : Decoder String
  | _, .string content => content
  | _ + 1, .object [(some tag, payload)] => if d.isUnit payload then some tag else none
  | _, _ => none

end Frontend.Json
