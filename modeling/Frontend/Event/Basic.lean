import Frontend.Code
import Frontend.Level
import Frontend.Limits
import Frontend.Span

/-!
# Events

An event has a level, a code, a message, sometimes a span, and named texts that say more. Messages
are cut to the length that a build allows, between characters, and end in dots when cut.
-/

set_option autoImplicit false

namespace Frontend

/-- Something to report. -/
structure Event where
  level : Level
  code : Code
  message : String
  span : Option Span := none
  /-- Named texts, in increasing order of their names. -/
  context : List (String × String) := []
  deriving DecidableEq, Repr

namespace Event

/-- A message that fits into `most` bytes as it is; of any other the characters that fit, and
dots. -/
def cut (most : Nat) (message : String) : String :=
  if message.utf8ByteSize ≤ most then message
  else String.ofList (Text.fitBytes most message.toList) ++ "..."

/-- An event without span and context. -/
def make (limits : Limits) (level : Level) (code : Code) (message : String) : Event where
  level := level
  code := code
  message := cut limits.maxMessageLength.toNat message

/-- A failure. -/
def error (limits : Limits) (code : Code) (message : String) : Event :=
  make limits .error code message

/-- A warning, which has no code of its own. -/
def warning (limits : Limits) (message : String) : Event :=
  make limits .warning .plainWarning message

/-- A remark, which has no code of its own. -/
def info (limits : Limits) (message : String) : Event := make limits .info .plainInfo message

/-- A success: a remark with a code. -/
def success (limits : Limits) (code : Code) (message : String) : Event :=
  make limits .info code message

/-- A debugging remark, which has no code of its own. -/
def debug (limits : Limits) (message : String) : Event := make limits .debug .plainDebug message

/-- The event with a place. -/
def withSpan (e : Event) (span : Span) : Event := { e with span := some span }

/-- Sets a named text among others in increasing order of names. -/
def put (key value : String) : List (String × String) → List (String × String)
  | [] => [(key, value)]
  | (other, text) :: rest =>
    if key = other then (key, value) :: rest
    else if key < other then (key, value) :: (other, text) :: rest
    else (other, text) :: put key value rest

/-- The event with one more named text. A text of that name is replaced. -/
def withContext (e : Event) (key value : String) : Event :=
  { e with context := put key value e.context }

/-- The event with several named texts, set one after the other. -/
def withContexts (e : Event) (pairs : List (String × String)) : Event :=
  pairs.foldl (fun e pair => e.withContext pair.1 pair.2) e

end Event

end Frontend
