import Frontend.Json.Decoder
import Frontend.Toml.Document

/-!
# Typed data in TOML

Typed data is read from TOML by the decoders that read it from JSON, in a dialect of their own.
-/

set_option autoImplicit false

namespace Frontend.Toml

/-- In TOML an empty table or an empty array stands in place of a payload, and an array may go on
after the last field. -/
def dialect : Json.Dialect where
  isUnit
    | .array [] => true
    | .object [] => true
    | _ => false
  extraItems := true

/-- Typed data from a text. -/
def decodeText {α : Type} (decoder : Json.Decoder α) (text : String) : Option α :=
  (read text.toList).bind fun document => decoder Json.nestingLimit document.toJson

end Frontend.Toml
