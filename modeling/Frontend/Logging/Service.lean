import Frontend.Event.Format
import Frontend.Event.Memory
import Frontend.Preferences

/-!
# Logging services

A service lets events through up to a level and sends them to one place: nowhere, to the console as
plain text or as lines of JSON, or to a memory log. On the console errors go to one channel and
everything else to the other. What is printed as JSON carries the time of printing, so it is kept as
the event until then.
-/

set_option autoImplicit false

namespace Frontend

/-- Where a service sends events. -/
inductive Sink where
  | nowhere
  | console
  | structured
  | memory
  deriving DecidableEq, Repr

/-- A place for events and the level up to which they are let through. -/
structure Service where
  sink : Sink
  most : Level
  deriving DecidableEq, Repr

namespace Service

/-- The service that preferences ask for. -/
def ofPreferences (p : LoggingPreferences) : Service where
  sink := if !p.console then .nowhere else if p.structured then .structured else .console
  most := p.minLevel

/-- Whether a service lets events of a level through. -/
def admits (s : Service) (level : Level) : Bool := level.within s.most

end Service

/-! ## The console -/

/-- Something printed: a text, or an event in JSON. -/
inductive Printed where
  | text (content : String)
  | event (e : Event)
  deriving DecidableEq, Repr

/-- The text of something printed at a time. -/
def Printed.render (time : String) : Printed → String
  | .text content => content
  | .event e => e.formatJson time

/-- What has been printed, errors apart from the rest. -/
structure Console where
  output : Array Printed := #[]
  errors : Array Printed := #[]

namespace Console

/-- Prints something about a failure. -/
def printError (c : Console) (p : Printed) : Console := { c with errors := c.errors.push p }

/-- Prints something for an event. -/
def printAt (c : Console) (level : Level) (p : Printed) : Console :=
  if level = .error then c.printError p else { c with output := c.output.push p }

end Console

end Frontend
