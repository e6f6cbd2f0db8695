import Frontend.Logging.State
import Frontend.Source

/-!
# Processing under a logging state

Texts and files are processed as ever, and what is reported on the way goes through the logging
state. While a file is processed, it is the source file in hand.
-/

set_option autoImplicit false

namespace Frontend.Logging

/-- Processes a text. -/
def processText (limits : Limits) (env : Environment) (preferences : Preferences)
    (duration : String) (text : List Char) (s : Logging) : Except Fault (Report × Logging) :=
  (process limits preferences duration text).map fun (report, events) =>
    (report, s.noteAll limits env events)

/-- Processes a source file. -/
def processFile (limits : Limits) (env : Environment) (preferences : Preferences)
    (duration : String) (files : FileSystem) (path : String) (s : Logging) :
    Except Fault (Except SourceError Report × Logging) :=
  (Frontend.processFile limits preferences duration files path).map fun (result, events) =>
    s.withSource path fun s => (result, s.noteAll limits env events)

end Frontend.Logging
