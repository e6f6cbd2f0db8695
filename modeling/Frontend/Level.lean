/-!
# Levels of events

A level says how much an event matters: an error most, a debug event least. A service set to one
level lets through every event at that level or above it.
-/

set_option autoImplicit false

namespace Frontend

/-- How much an event matters, weightiest first. -/
inductive Level where
  | error
  | warning
  | info
  | debug
  deriving DecidableEq, Repr

namespace Level

/-- The place of a level in the order from error to debug. -/
def rank : Level → Nat
  | .error => 0
  | .warning => 1
  | .info => 2
  | .debug => 3

/-- Whether a service set to `most` lets an event of level `level` through. -/
def within (level most : Level) : Bool := level.rank ≤ most.rank

/-- The name of a level in an event's text. -/
def name : Level → String
  | .error => "ERROR"
  | .warning => "WARN"
  | .info => "INFO"
  | .debug => "DEBUG"

/-- The word for a level in a configuration. -/
def word : Level → String
  | .error => "error"
  | .warning => "warning"
  | .info => "info"
  | .debug => "debug"

/-- All levels, weightiest first. -/
def all : List Level := [.error, .warning, .info, .debug]

/-- The level that a configuration names. -/
def ofWord? (text : String) : Option Level := all.find? (·.word == text)

/-- The level that an environment variable names: a word in letters of either case, a short form of
`warning`, or the rank as a digit. -/
def ofVariable? (text : String) : Option Level :=
  match String.ofList (text.toList.map Char.toLower) with
  | "error" | "0" => some .error
  | "warning" | "warn" | "1" => some .warning
  | "info" | "2" => some .info
  | "debug" | "3" => some .debug
  | _ => none

end Level

end Frontend
