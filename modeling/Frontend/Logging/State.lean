import Frontend.Logging.Service

/-!
# The logging state

One state holds what is decided about events: the preferences, once they are pinned; the service,
once one is installed; the source file in hand; and where events have gone so far.

Preferences are pinned by whoever asks for them first, to what the environment says at that moment.
There are three ways to report. `dispatch` sends an event to the service, if there is one, with the
source file in hand. `trace` does the same for debugging remarks, and only under preferences that
want them. `fallback` is for failures of logging itself: it does not depend on preferences, and
without a service it prints.
-/

set_option autoImplicit false

namespace Frontend

/-- What is decided about events, and where they have gone. -/
structure Logging where
  /-- The preferences, once they are pinned. -/
  preferences : Option LoggingPreferences := none
  /-- The service, once one is installed. -/
  service : Option Service := none
  /-- The source file in hand. -/
  source : Option String := none
  console : Console := {}
  memory : MemoryLog := {}

namespace Logging

/-! ## Preferences -/

/-- The preferences in force: the pinned ones, or those of the environment. -/
def active (env : Environment) (s : Logging) : LoggingPreferences :=
  s.preferences.getD (.ofEnvironment env)

/-- Pins the preferences in force. -/
def pin (env : Environment) (s : Logging) : Logging :=
  { s with preferences := some (s.active env) }

/-! ## Reporting -/

/-- Gives an event to a service. -/
def deliver (limits : Limits) (service : Service) (e : Event) (s : Logging) : Logging :=
  if service.admits e.level then
    match service.sink with
    | .nowhere => s
    | .console => { s with console := s.console.printAt e.level (.text e.format) }
    | .structured => { s with console := s.console.printAt e.level (.event e) }
    | .memory => { s with memory := s.memory.push limits.logBufferSize.toNat e }
  else s

/-- An event with the source file in hand, if the preferences in force want it. -/
def attach (env : Environment) (s : Logging) (e : Event) : Event :=
  match s.source with
  | some path => if (s.active env).includeSource then e.withContext "source" path else e
  | none => e

/-- Sends an event to the installed service, and pins the preferences on the way. Without a service
nothing happens. -/
def dispatch (limits : Limits) (env : Environment) (e : Event) (s : Logging) : Logging :=
  match s.service with
  | none => s
  | some service => (s.pin env).deliver limits service (s.attach env e)

/-- Reports a debugging remark: the preferences are pinned, and they decide whether it is sent. -/
def trace (limits : Limits) (env : Environment) (e : Event) (s : Logging) : Logging :=
  let s := s.pin env
  if Level.within .debug (s.active env).minLevel then s.dispatch limits env e else s

/-- Reports an event in the way that fits its level. -/
def note (limits : Limits) (env : Environment) (s : Logging) (e : Event) : Logging :=
  if e.level = .debug then s.trace limits env e else s.dispatch limits env e

/-- Reports events one after the other. -/
def noteAll (limits : Limits) (env : Environment) (events : List Event) (s : Logging) : Logging :=
  events.foldl (note limits env) s

/-- Reports a failure of logging itself: to the service as it is or, without one, on the console. -/
def fallback (limits : Limits) (code : Code) (message : String) (s : Logging) : Logging :=
  match s.service with
  | some service => s.deliver limits service (.error limits code message)
  | none =>
    { s with
      console :=
        s.console.printError (.text ("[ERROR] FALLBACK: [" ++ code.name ++ "] " ++ message)) }

/-! ## The source file in hand -/

/-- Runs an action with a source file in hand. Afterwards the one before is in hand again. -/
def withSource {α : Type} (path : String) (action : Logging → α × Logging) (s : Logging) :
    α × Logging :=
  let result := action { s with source := some path }
  (result.1, { result.2 with source := s.source })

end Logging

end Frontend
