/-!
# JSON values

A value keeps what a reader of typed data needs. Integers are numbers without a fraction and without
an exponent; any other number is kept as it is written, and so is a negative zero. The content of a
string is missing when its escapes leave a surrogate without its partner: such a string can be
skipped, and it can not be read.
-/

set_option autoImplicit false

namespace Frontend

/-- A JSON value. -/
inductive Json where
  | null
  | bool (value : Bool)
  | integer (value : Int)
  | decimal (literal : String)
  | string (content : Option String)
  | array (items : List Json)
  | object (members : List (Option String × Json))

namespace Json

/-- A string with content. -/
def text (content : String) : Json := .string (some content)

/-- A number without sign. -/
def natural (n : Nat) : Json := .integer n

/-- An object with readable keys. -/
def record (members : List (String × Json)) : Json :=
  .object (members.map fun member => (some member.1, member.2))

/-- An object with one member, as variants with a payload are written. -/
def tagged (tag : String) (payload : Json) : Json := record [(tag, payload)]

end Json

end Frontend
