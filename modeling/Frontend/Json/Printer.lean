import Frontend.Json.Basic

/-!
# Writing JSON

Two layouts: compact, without any white space, and indented by two blanks a level. In strings only
the quote, the backslash and the control characters below a blank are escaped.
-/

set_option autoImplicit false

namespace Frontend.Json

/-! ## Strings -/

/-- A hexadecimal digit in lower case. -/
def hexDigit (n : Nat) : Char := if n < 10 then Char.ofNat (48 + n) else Char.ofNat (87 + n)

/-- One character inside a string. -/
def escape (c : Char) : List Char :=
  match c with
  | '"' => ['\\', '"']
  | '\\' => ['\\', '\\']
  | '\x08' => ['\\', 'b']
  | '\x0c' => ['\\', 'f']
  | '\n' => ['\\', 'n']
  | '\r' => ['\\', 'r']
  | '\t' => ['\\', 't']
  | c =>
    if c.toNat < 0x20 then ['\\', 'u', '0', '0', hexDigit (c.toNat / 16), hexDigit (c.toNat % 16)]
    else [c]

/-- A string in quotes. -/
def quote (content : List Char) : List Char := '"' :: (content.flatMap escape ++ ['"'])

/-- A string in quotes; one without content is written as a lone surrogate. -/
def quote? : Option String → List Char
  | some content => quote content.toList
  | none => "\"\\ud800\"".toList

/-! ## Layouts -/

mutual

/-- A value without white space. -/
def compactChars : Json → List Char
  | .null => "null".toList
  | .bool true => "true".toList
  | .bool false => "false".toList
  | .integer value => (toString value).toList
  | .decimal literal => literal.toList
  | .string content => quote? content
  | .array items => '[' :: (compactItems items ++ [']'])
  | .object members => '{' :: (compactMembers members ++ ['}'])

/-- The items of an array with commas between them. -/
def compactItems : List Json → List Char
  | [] => []
  | item :: rest => item.compactChars ++ compactMoreItems rest

/-- The items after the first one, each after a comma. -/
def compactMoreItems : List Json → List Char
  | [] => []
  | item :: rest => ',' :: (item.compactChars ++ compactMoreItems rest)

/-- The members of an object with commas between them. -/
def compactMembers : List (Option String × Json) → List Char
  | [] => []
  | (key, value) :: rest => quote? key ++ ':' :: (value.compactChars ++ compactMoreMembers rest)

/-- The members after the first one, each after a comma. -/
def compactMoreMembers : List (Option String × Json) → List Char
  | [] => []
  | (key, value) :: rest =>
    ',' :: (quote? key ++ ':' :: (value.compactChars ++ compactMoreMembers rest))

end

/-- A value without white space. -/
def compact (j : Json) : String := String.ofList j.compactChars

/-- A new line, indented to a level. -/
def newline (level : Nat) : List Char := '\n' :: List.replicate (2 * level) ' '

mutual

/-- A value whose parts stand on lines of their own, at a level of indentation. -/
def prettyChars (level : Nat) : Json → List Char
  | .array [] => "[]".toList
  | .array (item :: rest) =>
    '[' :: (newline (level + 1) ++ item.prettyChars (level + 1) ++ prettyMoreItems (level + 1) rest
      ++ newline level ++ [']'])
  | .object [] => ['{', '}']
  | .object ((key, value) :: rest) =>
    '{' :: (newline (level + 1) ++ quote? key ++ ':' :: ' ' :: value.prettyChars (level + 1)
      ++ prettyMoreMembers (level + 1) rest ++ newline level ++ ['}'])
  | other => other.compactChars

/-- The items after the first one, each after a comma and on its own line. -/
def prettyMoreItems (level : Nat) : List Json → List Char
  | [] => []
  | item :: rest =>
    ',' :: (newline level ++ item.prettyChars level ++ prettyMoreItems level rest)

/-- The members after the first one, each after a comma and on its own line. -/
def prettyMoreMembers (level : Nat) : List (Option String × Json) → List Char
  | [] => []
  | (key, value) :: rest =>
    ',' :: (newline level ++ quote? key ++ ':' :: ' ' :: value.prettyChars level
      ++ prettyMoreMembers level rest)

end

/-- A value with indentation. -/
def pretty (j : Json) : String := String.ofList (j.prettyChars 0)

end Frontend.Json
