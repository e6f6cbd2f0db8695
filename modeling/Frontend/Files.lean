/-!
# Files and paths

A file system says what each path leads to. A path may lead to nothing; what it leads to has a size,
and reading it gives its content or fails.

One such system is a working directory with files and directories in it. A path is walked name by
name from there; `.` stays, `..` goes back, and a directory must be there wherever the walk goes on,
also before a slash at the end. What lies outside the working directory counts as an empty
directory.
-/

set_option autoImplicit false

namespace Frontend

/-- Why a file can not be used. -/
inductive FileError where
  | notFound
  | notDirectory
  | isDirectory
  | nameTooLong
  | nulInName
  | notText
  /-- Any other reason, in the words of the system. -/
  | other (text : String)
  deriving DecidableEq, Repr

/-- The text of an error. -/
def FileError.message : FileError → String
  | .notFound => "No such file or directory (os error 2)"
  | .notDirectory => "Not a directory (os error 20)"
  | .isDirectory => "Is a directory (os error 21)"
  | .nameTooLong => "File name too long (os error 36)"
  | .nulInName => "file name contained an unexpected NUL byte"
  | .notText => "stream did not contain valid UTF-8"
  | .other text => text

/-- What a path leads to. -/
inductive Entry where
  | file (content : ByteArray)
  | directory
  /-- Anything else, with the size that it is said to have and what comes of reading it. -/
  | special (bytes : Nat) (content : Except FileError ByteArray)

/-- The size of a file in bytes; that of a directory does not matter. -/
def Entry.size : Entry → Nat
  | .file content => content.size
  | .directory => 0
  | .special bytes _ => bytes

/-- The content of a file. -/
def Entry.read : Entry → Except FileError ByteArray
  | .file content => .ok content
  | .directory => .error .isDirectory
  | .special _ content => content

/-- The content of a file as text. -/
def Entry.readText (e : Entry) : Except FileError String :=
  match e.read with
  | .error cause => .error cause
  | .ok content =>
    match String.fromUTF8? content with
    | some text => .ok text
    | none => .error .notText

/-- What each path leads to, or why it leads to nothing. -/
structure FileSystem where
  find : String → Except FileError Entry

/-- The entries below a working directory, each under the names that lead to it. -/
structure Files where
  entries : List (List String × Entry) := []

namespace Files

/-! ## Paths -/

/-- The names in a path. A slash at the end is followed by an empty name. -/
def names (path : String) : List String := path.splitOn "/"

/-- A path from a base. A path from the root replaces the base. -/
def join (base path : String) : String :=
  if path.startsWith "/" then path
  else if base = "" ∨ base.endsWith "/" then base ++ path
  else base ++ "/" ++ path

/-- The length in bytes of the longest path. -/
def maxPath : Nat := 4095

/-- The length in bytes of the longest name. -/
def maxName : Nat := 255

/-! ## Walking -/

/-- Where a walk has come to: below the working directory, or out of it. -/
inductive Place where
  | inside (names : List String)
  | outside
  deriving DecidableEq, Repr

/-- What the names lead to. -/
def entry? (fs : Files) (names : List String) : Option Entry :=
  match names with
  | [] => some .directory
  | _ => (fs.entries.find? (·.1 == names)).map (·.2)

/-- What is at a place. -/
def at? (fs : Files) : Place → Option Entry
  | .inside names => fs.entry? names
  | .outside => some .directory

/-- The directory that a directory is in. -/
def parent : Place → Place
  | .inside [] => .outside
  | .inside names => .inside names.dropLast
  | .outside => .outside

/-- The place that a name in a directory leads to. -/
def child (fs : Files) (place : Place) (name : String) : Except FileError Place :=
  if maxName < name.utf8ByteSize then .error .nameTooLong
  else
    match place with
    | .outside => .error .notFound
    | .inside names =>
      match fs.entry? (names ++ [name]) with
      | some _ => .ok (.inside (names ++ [name]))
      | none => .error .notFound

/-- One name further. -/
def step (fs : Files) (place : Place) (name : String) : Except FileError Place :=
  match fs.at? place with
  | none => .error .notFound
  | some (.file _) | some (.special ..) => .error .notDirectory
  | some .directory =>
    if name = "" ∨ name = "." then .ok place
    else if name = ".." then .ok (parent place)
    else fs.child place name

/-- What a path leads to. -/
def find (fs : Files) (path : String) : Except FileError Entry :=
  if path.toList.contains '\x00' then .error .nulInName
  else if path = "" then .error .notFound
  else if maxPath < path.utf8ByteSize then .error .nameTooLong
  else
    let start := if path.startsWith "/" then Place.outside else .inside []
    match (names path).foldlM fs.step start with
    | .error cause => .error cause
    | .ok place =>
      match fs.at? place with
      | some entry => .ok entry
      | none => .error .notFound

/-- A working directory as a system in which paths are looked up. -/
def system (fs : Files) : FileSystem := ⟨fs.find⟩

instance : Coe Files FileSystem := ⟨system⟩

/-! ## Making entries -/

/-- The entries with one more under some names; what was there before is replaced. -/
def put (fs : Files) (names : List String) (entry : Entry) : Files where
  entries := (names, entry) :: fs.entries.filter (·.1 != names)

/-- Makes a directory at the place that a name leads to, and goes there. -/
def enter (walk : Files × List String) (name : String) : Files × List String :=
  let (fs, names) := walk
  if name = "" ∨ name = "." then (fs, names)
  else if name = ".." then (fs, names.dropLast)
  else
    let names := names ++ [name]
    match fs.entry? names with
    | some _ => (fs, names)
    | none => (fs.put names .directory, names)

/-- Makes a directory, with the directories on the way to it. -/
def makeDirectory (fs : Files) (path : String) : Files := ((names path).foldl enter (fs, [])).1

/-- Makes a file, with the directories on the way to it. -/
def makeFile (fs : Files) (path : String) (content : ByteArray) : Files :=
  let (fs, directory) := (names path).dropLast.foldl enter (fs, [])
  fs.put (directory ++ [(names path).getLastD ""]) (.file content)

end Files

end Frontend
