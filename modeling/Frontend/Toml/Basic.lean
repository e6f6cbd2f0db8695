import Frontend.Json.Basic

/-!
# TOML values

A table remembers how it came about, because that decides who may still add to it: a table written
inline is closed, one opened by its header may not be opened again, one that only stands in the path
of another header may be opened once, and one made by a dotted key may grow by further dotted keys.
-/

set_option autoImplicit false

namespace Frontend

/-- How a table came about. -/
inductive Toml.Origin where
  | inline
  | header
  | passed
  | dotted
  deriving DecidableEq, Repr

/-- A TOML value. -/
inductive Toml where
  | string (content : String)
  | integer (value : Int)
  | float (literal : String)
  | boolean (value : Bool)
  | moment (literal : String)
  | array (items : List Toml)
  /-- The tables of a repeated header, in order. -/
  | tables (items : List Toml)
  | table (origin : Toml.Origin) (entries : List (String × Toml))

namespace Toml

mutual

/-- A value as typed data is read from it. A date or time stands for a table with one entry of a
reserved name. -/
def toJson : Toml → Json
  | .string content => .text content
  | .integer value => .integer value
  | .float literal => .decimal literal
  | .boolean value => .bool value
  | .moment literal => .record [("$__toml_private_datetime", .text literal)]
  | .array items => .array (itemsToJson items)
  | .tables items => .array (itemsToJson items)
  | .table _ entries => .object (entriesToJson entries)

/-- The items of an array. -/
def itemsToJson : List Toml → List Json
  | [] => []
  | item :: rest => item.toJson :: itemsToJson rest

/-- The entries of a table. -/
def entriesToJson : List (String × Toml) → List (Option String × Json)
  | [] => []
  | (key, value) :: rest => (some key, value.toJson) :: entriesToJson rest

end

end Toml

end Frontend
