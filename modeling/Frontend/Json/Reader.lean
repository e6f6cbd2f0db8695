import Frontend.Json.Basic
import Frontend.Text.Decimal

/-!
# Reading JSON

A text is one value with white space around it. Commas separate and never trail, numbers have no
leading zeros, strings hold no raw control characters. Nesting is not limited here: `depth` and
`fuel` only bound the recursion, and the length of the text is enough for both.
-/

set_option autoImplicit false

namespace Frontend.Json

/-- Reads a part at the head of a text and gives the text after it. -/
abbrev Reader (α : Type) := List Char → Option (α × List Char)

/-- White space between tokens. -/
def isSpace (c : Char) : Bool := c = ' ' || c = '\n' || c = '\t' || c = '\r'

/-- The text after white space. -/
def skipSpace (text : List Char) : List Char := text.dropWhile isSpace

/-! ## Strings -/

/-- A piece of a string: a character, or a 16-bit unit given by its number. -/
inductive Piece where
  | char (c : Char)
  | unit (n : Nat)
  deriving DecidableEq, Repr

/-- The value of a hexadecimal digit. -/
def hexValue? (c : Char) : Option Nat :=
  if '0' ≤ c ∧ c ≤ '9' then some (c.toNat - 48)
  else if 'a' ≤ c ∧ c ≤ 'f' then some (c.toNat - 87)
  else if 'A' ≤ c ∧ c ≤ 'F' then some (c.toNat - 55)
  else none

/-- The unit that four hexadecimal digits give. -/
def unit? (a b c d : Char) : Option Nat := do
  let a ← hexValue? a
  let b ← hexValue? b
  let c ← hexValue? c
  let d ← hexValue? d
  return ((a * 16 + b) * 16 + c) * 16 + d

/-- The character that a letter stands for after a backslash. -/
def escaped? (c : Char) : Option Char :=
  match c with
  | '"' => some '"'
  | '\\' => some '\\'
  | '/' => some '/'
  | 'b' => some '\x08'
  | 'f' => some '\x0c'
  | 'n' => some '\n'
  | 'r' => some '\r'
  | 't' => some '\t'
  | _ => none

/-- The pieces of a string up to its closing quote. -/
def pieces : Reader (List Piece)
  | [] => none
  | '"' :: rest => some ([], rest)
  | '\\' :: 'u' :: a :: b :: c :: d :: rest =>
    match unit? a b c d, pieces rest with
    | some n, some (more, rest) => some (.unit n :: more, rest)
    | _, _ => none
  | '\\' :: letter :: rest =>
    match escaped? letter, pieces rest with
    | some c, some (more, rest) => some (.char c :: more, rest)
    | _, _ => none
  | c :: rest =>
    if c.toNat < 0x20 || c = '\\' then none
    else
      match pieces rest with
      | some (more, rest) => some (.char c :: more, rest)
      | none => none

/-- Whether a unit is the first half of a pair. -/
def isHighSurrogate (n : Nat) : Bool := 0xD800 ≤ n && n < 0xDC00

/-- Whether a unit is the second half of a pair. -/
def isLowSurrogate (n : Nat) : Bool := 0xDC00 ≤ n && n < 0xE000

/-- The text that pieces make up; a surrogate must stand in a pair of units. -/
def assemble : List Piece → Option (List Char)
  | [] => some []
  | .char c :: rest => (assemble rest).map (c :: ·)
  | .unit n :: rest =>
    if isHighSurrogate n then
      match rest with
      | .unit low :: rest =>
        if isLowSurrogate low then
          (assemble rest).map (Char.ofNat (0x10000 + (n - 0xD800) * 0x400 + (low - 0xDC00)) :: ·)
        else none
      | _ => none
    else if isLowSurrogate n then none
    else (assemble rest).map (Char.ofNat n :: ·)

/-- The content of a string after its opening quote, missing if its pieces make up no text. -/
def stringBody : Reader (Option String) := fun text =>
  (pieces text).map fun found => ((assemble found.1).map String.ofList, found.2)

/-! ## Numbers -/

/-- A run of at least one digit. -/
def digits : Reader (List Char) := fun text =>
  match text.takeWhile Char.isDigit with
  | [] => none
  | c :: cs => some (c :: cs, text.dropWhile Char.isDigit)

/-- The whole part of a number: a zero by itself, or digits that do not start with one. -/
def wholePart : Reader (List Char)
  | '0' :: rest => some (['0'], rest)
  | text => digits text

/-- The fraction of a number, if it has one. -/
def fraction : Reader (List Char)
  | '.' :: rest => (digits rest).map fun found => ('.' :: found.1, found.2)
  | text => some ([], text)

/-- The sign of an exponent, if it has one. -/
def exponentSign : List Char → List Char × List Char
  | '+' :: rest => (['+'], rest)
  | '-' :: rest => (['-'], rest)
  | text => ([], text)

/-- The exponent of a number, if it has one. -/
def exponent : Reader (List Char)
  | 'e' :: rest =>
    let (sign, rest) := exponentSign rest
    (digits rest).map fun found => ('e' :: (sign ++ found.1), found.2)
  | 'E' :: rest =>
    let (sign, rest) := exponentSign rest
    (digits rest).map fun found => ('E' :: (sign ++ found.1), found.2)
  | text => some ([], text)

/-- A number after its sign. -/
def unsigned (negative : Bool) : Reader Json := fun text => do
  let (whole, rest) ← wholePart text
  let (tail, rest) ← fraction rest
  let (power, rest) ← exponent rest
  let sign := if negative then ['-'] else []
  if tail.isEmpty && power.isEmpty && !(negative && whole == ['0']) then
    let value : Int := Text.decimalValue whole
    return (.integer (if negative then -value else value), rest)
  else return (.decimal (String.ofList (sign ++ whole ++ tail ++ power)), rest)

/-! ## Values -/

/-- The items of an array after the first one, up to the closing bracket. -/
def moreItems (item : Reader Json) : Nat → Reader (List Json)
  | 0, _ => none
  | fuel + 1, text =>
    match skipSpace text with
    | ']' :: rest => some ([], rest)
    | ',' :: rest =>
      match item rest with
      | none => none
      | some (first, rest) =>
        (moreItems item fuel rest).map fun found => (first :: found.1, found.2)
    | _ => none

/-- An array after its opening bracket, with at most `fuel` items after the first one. -/
def arrayBody (item : Reader Json) (fuel : Nat) : Reader (List Json) := fun text =>
  match skipSpace text with
  | ']' :: rest => some ([], rest)
  | text =>
    match item text with
    | none => none
    | some (first, rest) =>
      (moreItems item fuel rest).map fun found => (first :: found.1, found.2)

/-- A key with its value. -/
def member (item : Reader Json) : Reader (Option String × Json) := fun text =>
  match skipSpace text with
  | '"' :: rest =>
    match stringBody rest with
    | none => none
    | some (key, rest) =>
      match skipSpace rest with
      | ':' :: rest => (item rest).map fun found => ((key, found.1), found.2)
      | _ => none
  | _ => none

/-- The members of an object after the first one, up to the closing brace. -/
def moreMembers (item : Reader Json) : Nat → Reader (List (Option String × Json))
  | 0, _ => none
  | fuel + 1, text =>
    match skipSpace text with
    | '}' :: rest => some ([], rest)
    | ',' :: rest =>
      match member item rest with
      | none => none
      | some (first, rest) =>
        (moreMembers item fuel rest).map fun found => (first :: found.1, found.2)
    | _ => none

/-- An object after its opening brace, with at most `fuel` members after the first one. -/
def objectBody (item : Reader Json) (fuel : Nat) :
    Reader (List (Option String × Json)) := fun text =>
  match skipSpace text with
  | '}' :: rest => some ([], rest)
  | text =>
    match member item text with
    | none => none
    | some (first, rest) =>
      (moreMembers item fuel rest).map fun found => (first :: found.1, found.2)

/-- A value; `fuel` bounds its depth and the number of its parts, and the length of the text is
enough. -/
def value : Nat → Reader Json
  | 0, _ => none
  | fuel + 1, text =>
    match skipSpace text with
    | '[' :: rest =>
      (arrayBody (fun text => value fuel text) fuel rest).map fun found => (.array found.1, found.2)
    | '{' :: rest =>
      (objectBody (fun text => value fuel text) fuel rest).map fun found =>
        (.object found.1, found.2)
    | '"' :: rest => (stringBody rest).map fun found => (.string found.1, found.2)
    | 'n' :: 'u' :: 'l' :: 'l' :: rest => some (.null, rest)
    | 't' :: 'r' :: 'u' :: 'e' :: rest => some (.bool true, rest)
    | 'f' :: 'a' :: 'l' :: 's' :: 'e' :: rest => some (.bool false, rest)
    | '-' :: rest => unsigned true rest
    | text => unsigned false text

/-- The value that a whole text is. -/
def read (text : List Char) : Option Json :=
  match value text.length text with
  | some (j, rest) => if (skipSpace rest).isEmpty then some j else none
  | none => none

end Frontend.Json
