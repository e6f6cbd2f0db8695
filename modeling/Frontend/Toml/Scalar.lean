import Frontend.Text.Decimal
import Frontend.Toml.Basic

/-!
# TOML strings, numbers and dates

Readers for everything in a TOML text that holds no other value.
-/

set_option autoImplicit false

namespace Frontend.Toml.Read

/-- Reads a part at the head of a text and gives the text after it. -/
abbrev Reader (α : Type) := List Char → Option (α × List Char)

/-! ## Space, comments, line ends -/

/-- Blanks and tabs. -/
def isSpace (c : Char) : Bool := c = ' ' || c = '\t'

/-- The text after blanks and tabs. -/
def skipSpace (text : List Char) : List Char := text.dropWhile isSpace

/-- Whether a character may stand in a comment: no control character but the tab. -/
def isPrintable (c : Char) : Bool := c = '\t' || (0x20 ≤ c.toNat && c.toNat ≠ 0x7F)

/-- The text after a newline, if one stands at its head. -/
def newline? : List Char → Option (List Char)
  | '\n' :: rest => some rest
  | '\r' :: '\n' :: rest => some rest
  | _ => none

/-- The text after a comment, if one stands at its head. -/
def skipComment : List Char → List Char
  | '#' :: rest => rest.dropWhile isPrintable
  | text => text

/-- The text after the end of a line: space, an optional comment, and a newline or the end. -/
def lineEnd? (text : List Char) : Option (List Char) :=
  match skipComment (skipSpace text) with
  | [] => some []
  | text => newline? text

/-- The text after space, newlines and comments, as between the items of an array. -/
def skipLines : Nat → List Char → List Char
  | 0, text => text
  | fuel + 1, text =>
    match newline? (skipComment (skipSpace text)) with
    | some rest => skipLines fuel rest
    | none => skipSpace text

/-! ## Strings -/

/-- The value of a hexadecimal digit. -/
def hexValue? (c : Char) : Option Nat :=
  if '0' ≤ c ∧ c ≤ '9' then some (c.toNat - 48)
  else if 'a' ≤ c ∧ c ≤ 'f' then some (c.toNat - 87)
  else if 'A' ≤ c ∧ c ≤ 'F' then some (c.toNat - 55)
  else none

/-- The number that hexadecimal digits give. -/
def hexNumber? (digits : List Char) : Option Nat :=
  digits.foldlM (fun n c => (hexValue? c).map (16 * n + ·)) 0

/-- The character with a number, if there is one: surrogates are not characters. -/
def charOf? (n : Nat) : Option Char :=
  if n < 0xD800 || (0xDFFF < n && n < 0x110000) then some (Char.ofNat n) else none

/-- The character that stands after a backslash, and the text after it. -/
def escape : Reader Char
  | 'b' :: rest => some ('\x08', rest)
  | 't' :: rest => some ('\t', rest)
  | 'n' :: rest => some ('\n', rest)
  | 'f' :: rest => some ('\x0c', rest)
  | 'r' :: rest => some ('\r', rest)
  | '"' :: rest => some ('"', rest)
  | '\\' :: rest => some ('\\', rest)
  | 'u' :: a :: b :: c :: d :: rest =>
    ((hexNumber? [a, b, c, d]).bind charOf?).map fun found => (found, rest)
  | 'U' :: a :: b :: c :: d :: e :: f :: g :: h :: rest =>
    ((hexNumber? [a, b, c, d, e, f, g, h]).bind charOf?).map fun found => (found, rest)
  | _ => none

/-- The rest of a string in double quotes. -/
def basicBody : Nat → Reader (List Char)
  | 0, _ => none
  | _ + 1, [] => none
  | _ + 1, '"' :: rest => some ([], rest)
  | fuel + 1, '\\' :: rest =>
    match escape rest with
    | none => none
    | some (c, rest) => (basicBody fuel rest).map fun found => (c :: found.1, found.2)
  | fuel + 1, c :: rest =>
    if isPrintable c then (basicBody fuel rest).map fun found => (c :: found.1, found.2) else none

/-- The rest of a string in single quotes: nothing is escaped. -/
def literalBody : Reader (List Char)
  | [] => none
  | '\'' :: rest => some ([], rest)
  | c :: rest =>
    if isPrintable c then (literalBody rest).map fun found => (c :: found.1, found.2) else none

/-- The text after a newline and all space and newlines that follow, as after a backslash at the end
of a line. -/
def skipFold : Nat → List Char → List Char
  | 0, text => text
  | fuel + 1, text =>
    match text with
    | ' ' :: rest => skipFold fuel rest
    | '\t' :: rest => skipFold fuel rest
    | text =>
      match newline? text with
      | some rest => skipFold fuel rest
      | none => text

/-- The end of a string over several lines: three quotes close it, and up to two more before them
belong to it. -/
def closeMany (quote : Char) (text : List Char) : Option (List Char × List Char) :=
  let run := text.takeWhile (· = quote)
  if run.length < 3 then none
  else if run.length ≤ 5 then some (run.drop 3, text.drop run.length)
  else some ([quote, quote], text.drop 5)

/-- The rest of a string in three double quotes. -/
def basicLines : Nat → Reader (List Char)
  | 0, _ => none
  | fuel + 1, text =>
    match text with
    | [] => none
    | '"' :: rest =>
      match closeMany '"' text with
      | some found => some found
      | none => (basicLines fuel rest).map fun found => ('"' :: found.1, found.2)
    | '\\' :: rest =>
      match newline? (skipSpace rest) with
      | some after => basicLines fuel (skipFold after.length after)
      | none =>
        match escape rest with
        | none => none
        | some (c, rest) => (basicLines fuel rest).map fun found => (c :: found.1, found.2)
    | c :: rest =>
      match newline? text with
      | some rest => (basicLines fuel rest).map fun found => ('\n' :: found.1, found.2)
      | none =>
        if isPrintable c then (basicLines fuel rest).map fun found => (c :: found.1, found.2)
        else none

/-- The rest of a string in three single quotes. -/
def literalLines : Nat → Reader (List Char)
  | 0, _ => none
  | fuel + 1, text =>
    match text with
    | [] => none
    | '\'' :: rest =>
      match closeMany '\'' text with
      | some found => some found
      | none => (literalLines fuel rest).map fun found => ('\'' :: found.1, found.2)
    | c :: rest =>
      match newline? text with
      | some rest => (literalLines fuel rest).map fun found => ('\n' :: found.1, found.2)
      | none =>
        if isPrintable c then (literalLines fuel rest).map fun found => (c :: found.1, found.2)
        else none

/-- The text after the newline that may follow three opening quotes. -/
def skipFirstNewline (text : List Char) : List Char := (newline? text).getD text

/-- A string in quotes of any of the four kinds. -/
def quoted : Reader (List Char)
  | '"' :: '"' :: '"' :: rest => basicLines (rest.length + 1) (skipFirstNewline rest)
  | '"' :: rest => basicBody (rest.length + 1) rest
  | '\'' :: '\'' :: '\'' :: rest => literalLines (rest.length + 1) (skipFirstNewline rest)
  | '\'' :: rest => literalBody rest
  | _ => none

/-! ## Numbers -/

/-- Digits after a first one, with single underscores between digits. -/
def moreDigits (isDigit : Char → Bool) : Reader (List Char)
  | [] => some ([], [])
  | '_' :: c :: rest =>
    if isDigit c then (moreDigits isDigit rest).map fun found => (c :: found.1, found.2) else none
  | c :: rest =>
    if isDigit c then (moreDigits isDigit rest).map fun found => (c :: found.1, found.2)
    else if c = '_' then none
    else some ([], c :: rest)

/-- At least one digit, with single underscores between digits. -/
def digitRun (isDigit : Char → Bool) : Reader (List Char)
  | [] => none
  | c :: rest =>
    if isDigit c then (moreDigits isDigit rest).map fun found => (c :: found.1, found.2) else none

/-- A sign, if there is one, as whether it is negative. -/
def sign : List Char → Bool × List Char
  | '-' :: rest => (true, rest)
  | '+' :: rest => (false, rest)
  | text => (false, text)

/-- The digits of a decimal integer: a zero stands alone. -/
def wholeDigits : Reader (List Char)
  | '0' :: rest => some (['0'], rest)
  | text => digitRun Char.isDigit text

/-- A number as an integer value, if it fits into 64 bits with sign. -/
def integerOf? (value : Int) : Option Toml :=
  if -Text.int64Bound ≤ value ∧ value < Text.int64Bound then some (.integer value) else none

/-- A number written in a base other than ten, after the letter that names the base. -/
def basedInteger (base : Nat) (isDigit : Char → Bool) : Reader Toml := fun text => do
  let (digits, rest) ← digitRun isDigit text
  let value ← digits.foldlM (fun (n : Nat) c => (hexValue? c).map (base * n + ·)) 0
  let found ← integerOf? value
  return (found, rest)

/-- An integer. -/
def integer : Reader Toml
  | '0' :: 'x' :: rest => basedInteger 16 (fun c => (hexValue? c).isSome) rest
  | '0' :: 'o' :: rest => basedInteger 8 (fun c => '0' ≤ c && c ≤ '7') rest
  | '0' :: 'b' :: rest => basedInteger 2 (fun c => c = '0' || c = '1') rest
  | text => do
    let (negative, rest) := sign text
    let (digits, rest) ← wholeDigits rest
    let value : Int := Text.decimalValue digits
    let found ← integerOf? (if negative then -value else value)
    return (found, rest)

/-- Whether `mantissa · 10 ^ power` rounds to a number beyond the largest double. -/
def exceedsDouble (mantissa : Nat) (power : Int) : Bool :=
  let digits : Int := (Nat.toDigits 10 mantissa).length
  if mantissa = 0 then false
  else if digits + power < 300 then false
  else if 320 < digits + power then true
  else
    let bound : Nat := Nat.pow 2 1024 - Nat.pow 2 970
    if 0 ≤ power then bound ≤ mantissa * Nat.pow 10 power.toNat
    else bound * Nat.pow 10 (-power).toNat ≤ mantissa

/-- The fraction of a number after its point. -/
def fraction : Reader (List Char)
  | '.' :: rest => digitRun Char.isDigit rest
  | _ => none

/-- The exponent of a number, with its sign. -/
def exponent : Reader Int
  | 'e' :: rest => signed rest
  | 'E' :: rest => signed rest
  | _ => none
where
  signed (text : List Char) : Option (Int × List Char) := do
    let (negative, rest) := sign text
    let (digits, rest) ← digitRun Char.isDigit rest
    let value : Int := Text.decimalValue digits
    return (if negative then -value else value, rest)

/-- A number with a fraction, an exponent, or both. A positive one must not round to infinity. -/
def finiteFloat : Reader Toml := fun text => do
  let (negative, rest) := sign text
  let (whole, rest) ← wholeDigits rest
  let (tail, rest) ←
    match rest with
    | '.' :: _ => fraction rest
    | _ => some ([], rest)
  let (power, rest) ←
    match rest with
    | 'e' :: _ => exponent rest
    | 'E' :: _ => exponent rest
    | _ => if tail.isEmpty then none else some (0, rest)
  if !negative && exceedsDouble (Text.decimalValue (whole ++ tail)) (power - tail.length) then none
  else return (.float (String.ofList (text.take (text.length - rest.length))), rest)

/-- An infinity or a number that is none, after its sign. -/
def specialFloat : Reader Toml
  | 'i' :: 'n' :: 'f' :: rest => some (.float "inf", rest)
  | 'n' :: 'a' :: 'n' :: rest => some (.float "nan", rest)
  | _ => none

/-- A number that is not an integer. -/
def float : Reader Toml := fun text =>
  match finiteFloat text with
  | some found => some found
  | none => specialFloat (sign text).2

/-! ## Dates and times -/

/-- A number of exactly two digits, from `least` to `most`. -/
def twoDigits (least most : Nat) : Reader Nat
  | a :: b :: rest =>
    if a.isDigit && b.isDigit then
      let value := Text.decimalValue [a, b]
      if least ≤ value ∧ value ≤ most then some (value, rest) else none
    else none
  | _ => none

/-- A number of exactly four digits. -/
def fourDigits : Reader Nat
  | a :: b :: c :: d :: rest =>
    if [a, b, c, d].all Char.isDigit then some (Text.decimalValue [a, b, c, d], rest) else none
  | _ => none

/-- The text after a given character. -/
def expect (c : Char) : List Char → Option (List Char)
  | d :: rest => if c = d then some rest else none
  | [] => none

/-- The number of days of a month. -/
def daysOf (year month : Nat) : Nat :=
  if month = 2 then if year % 4 = 0 ∧ (year % 100 ≠ 0 ∨ year % 400 = 0) then 29 else 28
  else if month = 4 ∨ month = 6 ∨ month = 9 ∨ month = 11 then 30
  else 31

/-- The text after a date. -/
def date? (text : List Char) : Option (List Char) := do
  let (year, rest) ← fourDigits text
  let rest ← expect '-' rest
  let (month, rest) ← twoDigits 1 12 rest
  let rest ← expect '-' rest
  let (_, rest) ← twoDigits 1 (daysOf year month) rest
  return rest

/-- The text after a time of day. A fraction of the second needs a digit. -/
def time? (text : List Char) : Option (List Char) := do
  let (_, rest) ← twoDigits 0 23 text
  let rest ← expect ':' rest
  let (_, rest) ← twoDigits 0 59 rest
  let rest ← expect ':' rest
  let (_, rest) ← twoDigits 0 60 rest
  match rest with
  | '.' :: c :: after => if c.isDigit then return after.dropWhile Char.isDigit else return rest
  | _ => return rest

/-- The text after an offset from universal time; `none` if one starts and is broken. -/
def offset? : List Char → Option (List Char)
  | 'Z' :: rest => some rest
  | 'z' :: rest => some rest
  | c :: rest =>
    if c = '+' || c = '-' then do
      let (_, rest) ← twoDigits 0 23 rest
      let rest ← expect ':' rest
      let (_, rest) ← twoDigits 0 59 rest
      return rest
    else some (c :: rest)
  | [] => some []

/-- The text after a date, a time, or both with an optional offset. -/
def momentEnd? (text : List Char) : Option (List Char) :=
  match date? text with
  | some rest =>
    match rest with
    | c :: after =>
      if c = 'T' || c = 't' || c = ' ' then
        match time? after with
        | some rest => offset? rest
        | none => some rest
      else some rest
    | [] => some []
  | none => time? text

/-- A date, a time, or both. -/
def moment : Reader Toml := fun text =>
  (momentEnd? text).map fun rest =>
    (.moment (String.ofList (text.take (text.length - rest.length))), rest)

/-- A number, a date or a time. -/
def number : Reader Toml := fun text =>
  match moment text with
  | some found => some found
  | none =>
    match float text with
    | some found => some found
    | none => integer text

end Frontend.Toml.Read
