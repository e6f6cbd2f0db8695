import Frontend.Environment
import Frontend.Level

/-!
# Preferences

What a user may choose at run time: how much the lexer counts and reports, how much the parser
reports, and where events go. Each choice has an environment variable that gives its default.
-/

set_option autoImplicit false

namespace Frontend

/-- What the lexer counts and reports. -/
structure LexicalPreferences where
  detailedMetrics : Bool
  trackOperators : Bool
  logIllegal : Bool
  deriving DecidableEq, Repr

/-- What the parser reports. -/
structure ParserPreferences where
  logDiagnostics : Bool
  traceStatements : Bool
  deriving DecidableEq, Repr

/-- Where events go, and which of them. -/
structure LoggingPreferences where
  structured : Bool
  console : Bool
  minLevel : Level
  includeSource : Bool
  deriving DecidableEq, Repr

/-- All choices of a user. -/
structure Preferences where
  lexical : LexicalPreferences
  parser : ParserPreferences
  logging : LoggingPreferences
  deriving DecidableEq, Repr

/-- The lexer's defaults: count in detail, do not count operators apart, report illegal
characters. -/
def LexicalPreferences.ofEnvironment (env : Environment) : LexicalPreferences where
  detailedMetrics := env.switch "MONKE_LEXICAL_DETAILED_METRICS" true
  trackOperators := env.switch "MONKE_LEXICAL_TRACK_OPERATORS" false
  logIllegal := env.switch "MONKE_LEXICAL_LOG_ILLEGAL" true

/-- The parser's defaults: report diagnostics, do not trace statements. -/
def ParserPreferences.ofEnvironment (env : Environment) : ParserPreferences where
  logDiagnostics := env.switch "MONKE_PARSER_LOG_DIAGNOSTICS" true
  traceStatements := env.switch "MONKE_PARSER_TRACE_STATEMENTS" false

/-- The defaults for events: plain text, no console, up to `info`, with the source file. -/
def LoggingPreferences.ofEnvironment (env : Environment) : LoggingPreferences where
  structured := env.switch "MONKE_LOGGING_USE_STRUCTURED" false
  console := env.switch "MONKE_LOGGING_ENABLE_CONSOLE" false
  minLevel := ((env.get? "MONKE_LOGGING_MIN_LEVEL").bind Level.ofVariable?).getD .info
  includeSource := env.switch "MONKE_LOGGING_INCLUDE_SOURCE_CONTEXT" true

/-- The defaults that an environment gives. -/
def Preferences.ofEnvironment (env : Environment) : Preferences where
  lexical := .ofEnvironment env
  parser := .ofEnvironment env
  logging := .ofEnvironment env

end Frontend
