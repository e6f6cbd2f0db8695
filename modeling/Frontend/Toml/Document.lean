import Frontend.Toml.Scalar

/-!
# TOML documents

A document is a list of lines: blank ones, comments, entries `key = value`, headers `[path]` and
repeated headers `[[path]]`. Entries go into the table of the last header. This module has the rules
for who may add to which table, the reader of values that hold other values, and the reader of a
whole document.
-/

set_option autoImplicit false

namespace Frontend.Toml

/-! ## Adding to tables -/

/-- The entries of a table, with how it came about. -/
structure Body where
  origin : Origin
  entries : List (String × Toml)

namespace Body

/-- What a key holds. -/
def get? (b : Body) (key : String) : Option Toml := (b.entries.find? (·.1 == key)).map (·.2)

/-- The table with a new entry. -/
def add (b : Body) (key : String) (value : Toml) : Body :=
  { b with entries := b.entries ++ [(key, value)] }

/-- The table with another value for a key that it holds. -/
def replace (b : Body) (key : String) (value : Toml) : Body :=
  { b with entries := b.entries.map fun entry => if entry.1 == key then (key, value) else entry }

/-- The table as a value. -/
def toToml (b : Body) : Toml := .table b.origin b.entries

/-- Changes the table at the end of a path. Tables on the way that are missing are made as `made`;
of a repeated header the last table is meant. By dotted keys (`made = .dotted`) one does not get
into a table that has a header of its own. -/
def modify (made : Origin) (change : Body → Option Body) : List String → Body → Option Body
  | [], b => change b
  | key :: path, b =>
    match b.get? key with
    | none => (modify made change path ⟨made, []⟩).map fun inner => b.add key inner.toToml
    | some (.table origin entries) =>
      if origin = .inline ∨ (made = .dotted ∧ origin = .header) then none
      else (modify made change path ⟨origin, entries⟩).map fun inner => b.replace key inner.toToml
    | some (.tables items) =>
      match items.getLast? with
      | some (.table origin entries) =>
        (modify made change path ⟨origin, entries⟩).map fun inner =>
          b.replace key (.tables (items.dropLast ++ [inner.toToml]))
      | _ => none
    | some _ => none

/-- Adds an entry under a dotted key. The table that takes it must have been made by dotted keys, or
the key must have a single part; and the key must be new there. -/
def enter (path : List String) (key : String) (value : Toml) (b : Body) : Option Body :=
  b.modify .dotted
    (fun inner =>
      if decide (inner.origin = .dotted) == path.isEmpty then none
      else if (inner.get? key).isSome then none
      else some (inner.add key value))
    path

/-- Opens the table of a header: a new one, or one that only stood in the path of other headers. -/
def openTable (path : List String) (key : String) (b : Body) : Option Body :=
  b.modify .passed
    (fun parent =>
      match parent.get? key with
      | none => some (parent.add key (.table .header []))
      | some (.table .passed entries) => some (parent.replace key (.table .header entries))
      | some _ => none)
    path

/-- Adds a table for a repeated header. -/
def openNext (path : List String) (key : String) (b : Body) : Option Body :=
  b.modify .passed
    (fun parent =>
      match parent.get? key with
      | none => some (parent.add key (.tables [.table .header []]))
      | some (.tables items) => some (parent.replace key (.tables (items ++ [.table .header []])))
      | some _ => none)
    path

end Body

namespace Read

/-! ## Keys -/

/-- The characters of a key without quotes. -/
def isKeyChar (c : Char) : Bool := c.isAlphanum || c = '-' || c = '_'

/-- One part of a key. -/
def keyPart : Reader String
  | '"' :: rest =>
    (basicBody (rest.length + 1) rest).map fun found => (String.ofList found.1, found.2)
  | '\'' :: rest => (literalBody rest).map fun found => (String.ofList found.1, found.2)
  | text =>
    match text.takeWhile isKeyChar with
    | [] => none
    | c :: cs => some (String.ofList (c :: cs), text.dropWhile isKeyChar)

/-- The parts of a key, with dots between them and space around them. -/
def keyParts : Nat → Reader (List String)
  | 0, _ => none
  | fuel + 1, text =>
    match keyPart (skipSpace text) with
    | none => none
    | some (part, rest) =>
      match skipSpace rest with
      | '.' :: rest => (keyParts fuel rest).map fun found => (part :: found.1, found.2)
      | rest => some ([part], rest)

/-- Values may be nested, and keys may have parts, up to this number. -/
def nestingLimit : Nat := 80

/-- A key as the path to its table and its last part. -/
def key : Reader (List String × String) := fun text =>
  match keyParts (text.length + 1) text with
  | none => none
  | some (parts, rest) =>
    match parts.getLast? with
    | none => none
    | some last => if parts.length < nestingLimit then some ((parts.dropLast, last), rest) else none

/-! ## Values -/

/-- The items of an array after the first one. A comma may trail. -/
def moreItems (item : Reader Toml) : Nat → Reader (List Toml)
  | 0, _ => none
  | fuel + 1, text =>
    match skipLines text.length text with
    | ']' :: rest => some ([], rest)
    | ',' :: rest =>
      match skipLines rest.length rest with
      | ']' :: rest => some ([], rest)
      | text =>
        match item text with
        | none => none
        | some (first, rest) =>
          (moreItems item fuel rest).map fun found => (first :: found.1, found.2)
    | _ => none

/-- An array after its opening bracket. -/
def arrayBody (item : Reader Toml) : Reader (List Toml) := fun text =>
  match skipLines text.length text with
  | ']' :: rest => some ([], rest)
  | text =>
    match item text with
    | none => none
    | some (first, rest) =>
      (moreItems item (rest.length + 1) rest).map fun found => (first :: found.1, found.2)

/-- An entry inside braces. -/
def inlineEntry (item : Reader Toml) : Reader ((List String × String) × Toml) := fun text => do
  let (name, rest) ← key text
  let rest ← expect '=' rest
  let (value, rest) ← item (skipSpace rest)
  return ((name, value), skipSpace rest)

/-- The entries of an inline table from the first one on. No comma may trail. -/
def inlineEntries (item : Reader Toml) : Nat → Body → Reader Body
  | 0, _, _ => none
  | fuel + 1, b, text =>
    match inlineEntry item text with
    | none => none
    | some (((path, name), value), rest) =>
      match b.enter path name value with
      | none => none
      | some b =>
        match rest with
        | '}' :: rest => some (b, rest)
        | ',' :: rest => inlineEntries item fuel b rest
        | _ => none

/-- An inline table after its opening brace. Once closed, it and its parts take no more entries. -/
def inlineBody (item : Reader Toml) : Reader Toml := fun text =>
  match skipSpace text with
  | '}' :: rest => some (.table .inline [], rest)
  | text =>
    (inlineEntries item (text.length + 1) ⟨.inline, []⟩ text).map fun found =>
      (.table .inline found.1.entries, found.2)

/-- A value; `room` is how many more arrays and inline tables may be opened. -/
def value : Nat → Reader Toml
  | room, '[' :: rest =>
    match room with
    | 0 => none
    | room + 1 =>
      (arrayBody (fun text => value room text) rest).map fun found => (.array found.1, found.2)
  | room, '{' :: rest =>
    match room with
    | 0 => none
    | room + 1 => inlineBody (fun text => value room text) rest
  | _, text =>
    match text with
    | '"' :: _ => (quoted text).map fun found => (.string (String.ofList found.1), found.2)
    | '\'' :: _ => (quoted text).map fun found => (.string (String.ofList found.1), found.2)
    | 't' :: 'r' :: 'u' :: 'e' :: rest => some (.boolean true, rest)
    | 'f' :: 'a' :: 'l' :: 's' :: 'e' :: rest => some (.boolean false, rest)
    | 'i' :: _ => specialFloat text
    | 'n' :: _ => specialFloat text
    | c :: _ => if c = '+' || c = '-' || c.isDigit then number text else none
    | [] => none

/-! ## Lines -/

/-- A document so far: the outermost table, and the path to the table of the last header. -/
structure State where
  root : Body := ⟨.header, []⟩
  current : List String := []

/-- An entry `key = value` on a line of its own. -/
def entryLine (s : State) (text : List Char) : Option (State × List Char) := do
  let ((path, name), rest) ← key text
  let rest ← expect '=' rest
  let (value, rest) ← value (nestingLimit - 1) (skipSpace rest)
  let rest ← lineEnd? rest
  let root ← s.root.modify .passed (Body.enter path name value) s.current
  return ({ s with root := root }, rest)

/-- A header after its opening bracket, or a repeated header after both of them. -/
def headerLine (repeated : Bool) (s : State) (text : List Char) : Option (State × List Char) := do
  let ((path, name), rest) ← key text
  let rest ← expect ']' rest
  let rest ← if repeated then expect ']' rest else some rest
  let rest ← lineEnd? rest
  let root ← if repeated then s.root.openNext path name else s.root.openTable path name
  return (⟨root, path ++ [name]⟩, rest)

/-- One line. -/
def line (s : State) (text : List Char) : Option (State × List Char) :=
  match skipSpace text with
  | '[' :: '[' :: rest => headerLine true s rest
  | '[' :: rest => headerLine false s rest
  | '#' :: rest => (lineEnd? ('#' :: rest)).map fun rest => (s, rest)
  | text =>
    match newline? text with
    | some rest => some (s, rest)
    | none => entryLine s text

/-- The lines of a document. -/
def lines : Nat → State → List Char → Option State
  | 0, _, _ => none
  | fuel + 1, s, text =>
    if (skipSpace text).isEmpty then some s
    else
      match line s text with
      | none => none
      | some (s, rest) => lines fuel s rest

end Read

/-- The table that a document is. A byte order mark may stand before it. -/
def read (text : List Char) : Option Toml :=
  let text :=
    match text with
    | '\uFEFF' :: rest => rest
    | text => text
  (Read.lines (text.length + 1) {} text).map fun s => s.root.toToml

end Frontend.Toml
