import Frontend.Files
import Frontend.Report

/-!
# Source files

A source file is loaded step by step: it is looked up, its size is checked, its bytes are read, and
they are taken as UTF-8. The first step that fails says why a file can not be processed.
-/

set_option autoImplicit false

namespace Frontend

/-- Why a source file can not be processed. -/
inductive SourceError where
  | notFound (path : String)
  /-- The path leads to nothing, for another reason than that nothing is there. -/
  | inaccessible (cause : FileError)
  | tooLarge (size limit : Nat)
  | unreadable (cause : FileError)
  | badEncoding (path : String)
  deriving DecidableEq, Repr

namespace SourceError

/-- The text of an error. -/
def message : SourceError → String
  | .notFound path => "Source not found: " ++ path
  | .inaccessible cause => "I/O error reading source: " ++ cause.message
  | .tooLarge size limit =>
    "Source too large: " ++ toString size ++ " bytes (max: " ++ toString limit ++ ")"
  | .unreadable cause => "I/O error reading source: " ++ cause.message
  | .badEncoding path => "Invalid UTF-8 encoding in source: " ++ path

/-- The code of an error. -/
def code : SourceError → Code
  | .notFound _ => .sourceNotFound
  | .inaccessible _ => .readFailure
  | .tooLarge .. => .sourceTooLarge
  | .unreadable _ => .readFailure
  | .badEncoding _ => .invalidEncoding

/-- What is reported of an error on a path. A file that is there and can not be read is not
reported. -/
def notes (limits : Limits) (path : String) (e : SourceError) : List Event :=
  match e with
  | .notFound _ | .inaccessible _ =>
    [(Event.error limits e.code "Cannot access source file").withContext "path" path]
  | .tooLarge size limit =>
    [(Event.error limits e.code "Source file exceeds size limit").withContexts
      [("path", path), ("size", toString size), ("max_size", toString limit)]]
  | .unreadable _ => []
  | .badEncoding _ =>
    [(Event.error limits e.code "Source file is not valid UTF-8").withContext "path" path]

end SourceError

/-- The text of a source file. -/
def loadSource (limits : Limits) (files : FileSystem) (path : String) :
    Except SourceError (List Char) :=
  match files.find path with
  | .error .notFound => .error (.notFound path)
  | .error cause => .error (.inaccessible cause)
  | .ok entry =>
    if limits.maxSourceSize.toNat < entry.size then
      .error (.tooLarge entry.size limits.maxSourceSize.toNat)
    else
      match entry.read with
      | .error cause => .error (.unreadable cause)
      | .ok content =>
        match String.fromUTF8? content with
        | some text => .ok text.toList
        | none => .error (.badEncoding path)

/-- Processes a source file, and gives the report, or why there is none, and the events on the
way. -/
def processFile (limits : Limits) (preferences : Preferences) (duration : String)
    (files : FileSystem) (path : String) : Except Fault (Except SourceError Report × List Event) :=
  let opening := (Event.info limits "Processing source file").withContext "file" path
  match loadSource limits files path with
  | .error e => .ok (.error e, opening :: e.notes limits path)
  | .ok text =>
    (process limits preferences duration text).map fun (report, events) =>
      (.ok report, opening :: events)

end Frontend
