import Frontend.Logging.State

/-!
# Starting to log

A service can be installed once, and preferences can be pinned once. Whoever starts logging gets a
service by the preferences in force (`start`), by preferences of their own, which are pinned
(`startWith`), or brings a service along (`startWithService`).
-/

set_option autoImplicit false

namespace Frontend

/-- Why logging could not be started or set up. -/
inductive LoggingError where
  | alreadyStarted
  | alreadyPinned
  /-- Other preferences were pinned before. -/
  | pinnedBefore
  /-- The limits of the build do not allow logging. -/
  | badLimits (problem : String)
  deriving DecidableEq, Repr

/-- The text of an error. -/
def LoggingError.message : LoggingError → String
  | .alreadyStarted => "Global logger already initialized"
  | .alreadyPinned => "Runtime preferences already initialized"
  | .pinnedBefore => "Logging preferences were pinned before initialization"
  | .badLimits problem => "Configuration validation failed: " ++ problem

namespace Logging

/-- Whether a service is installed. -/
def started (s : Logging) : Bool := s.service.isSome

/-- What the build fixes and the preferences say about logging. -/
def describe (build : Build) (p : LoggingPreferences) : String :=
  "Logging Configuration:\n=== Compile-time (" ++ build.profile ++ ") ===\n- Log buffer size: "
    ++ toString build.limits.logBufferSize.toNat ++ "\n- Max message length: "
    ++ toString build.limits.maxMessageLength.toNat ++ "\n=== Runtime ===\n- Min log level: "
    ++ p.minLevel.name ++ "\n- Structured logging: " ++ Event.renderBool p.structured
    ++ "\n- Console logging: " ++ Event.renderBool p.console ++ "\n- Source context: "
    ++ Event.renderBool p.includeSource

/-- Pins preferences, unless some are pinned already. -/
def setPreferences (p : LoggingPreferences) (s : Logging) : Except LoggingError Unit × Logging :=
  match s.preferences with
  | some _ => (.error .alreadyPinned, s)
  | none => (.ok (), { s with preferences := some p })

/-- Fails with an error that is reported as well. -/
def fail (limits : Limits) (e : LoggingError) (s : Logging) : Except LoggingError Unit × Logging :=
  (.error e, s.fallback limits .startFailure e.message)

/-- Installs a service and tells it that it is. Limits that do not allow logging are reported; a
service that is there already is not. -/
def install (build : Build) (env : Environment) (service : Service) (s : Logging) :
    Except LoggingError Unit × Logging :=
  match build.limits.loggingProblem? with
  | some problem => s.fail build.limits (.badLimits problem)
  | none =>
    if s.started then (.error .alreadyStarted, s)
    else
      let greeting :=
        (Event.success build.limits .loggingStarted "Global logging system initialized").withContext
          "profile" build.profile
      let settings := Event.debug build.limits (describe build (s.active env))
      let s := { s with service := some service }
      let s := (s.deliver build.limits service greeting).pin env
      (.ok (), s.deliver build.limits service settings)

/-- Starts logging with the preferences in force. -/
def start (build : Build) (env : Environment) (s : Logging) : Except LoggingError Unit × Logging :=
  (s.pin env).install build env (.ofPreferences (s.active env))

/-- Starts logging with given preferences, which are pinned. -/
def startWith (build : Build) (env : Environment) (p : LoggingPreferences) (s : Logging) :
    Except LoggingError Unit × Logging :=
  if s.started then s.fail build.limits .alreadyStarted
  else
    match s.setPreferences p with
    | (.ok (), s) => s.install build env (.ofPreferences p)
    | (.error _, s) =>
      if s.active env = p then s.install build env (.ofPreferences p)
      else s.fail build.limits .pinnedBefore

/-- Starts logging with a given service. -/
def startWithService (service : Service) (s : Logging) : Except LoggingError Unit × Logging :=
  if s.started then (.error .alreadyStarted, s) else (.ok (), { s with service := some service })

end Logging

end Frontend
