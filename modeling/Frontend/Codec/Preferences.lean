import Frontend.Preferences
import Frontend.Toml.Decoder

/-!
# Preferences as JSON and TOML

Both formats go through one decoder. Whatever a document leaves out, a table or a single choice, is
taken from the defaults. The formats differ in what stands in place of the payload of a level
written as a variant, and in whether an array in place of a table may be longer than the table.
-/

set_option autoImplicit false

namespace Frontend

open Json (asRecordIn asBool Decoder Dialect)

/-! ## Encodings -/

/-- The encoding of the lexer's preferences. -/
def LexicalPreferences.toJson (p : LexicalPreferences) : Json :=
  .record [("collect_detailed_metrics", .bool p.detailedMetrics),
    ("track_operator_patterns", .bool p.trackOperators),
    ("log_illegal_characters", .bool p.logIllegal)]

/-- The encoding of the parser's preferences. -/
def ParserPreferences.toJson (p : ParserPreferences) : Json :=
  .record [("log_diagnostics", .bool p.logDiagnostics),
    ("trace_statements", .bool p.traceStatements)]

/-- The encoding of the preferences for events. -/
def LoggingPreferences.toJson (p : LoggingPreferences) : Json :=
  .record [("use_structured_logging", .bool p.structured),
    ("enable_console_logging", .bool p.console), ("min_log_level", .text p.minLevel.word),
    ("include_source_context", .bool p.includeSource)]

/-- The encoding of all preferences. -/
def Preferences.toJson (p : Preferences) : Json :=
  .record [("lexical", p.lexical.toJson), ("parser", p.parser.toJson),
    ("logging", p.logging.toJson)]

/-! ## Decoding -/

/-- A field, or its default when it is missing. -/
def orDefault {α : Type} (decoder : Decoder α) (room : Nat) (default : α) : Option Json → Option α
  | some j => decoder room j
  | none => some default

/-- Reads a level. -/
def Level.decode (d : Dialect) : Decoder Level := fun room j =>
  (Json.tag? d room j).bind Level.ofWord?

/-- Reads the lexer's preferences. -/
def LexicalPreferences.decode (d : Dialect) (default : LexicalPreferences) :
    Decoder LexicalPreferences :=
  asRecordIn d ["collect_detailed_metrics", "track_operator_patterns", "log_illegal_characters"]
    fun room fields =>
      match fields with
      | [detailed, track, illegal] => do
        return ⟨← orDefault asBool room default.detailedMetrics detailed,
          ← orDefault asBool room default.trackOperators track,
          ← orDefault asBool room default.logIllegal illegal⟩
      | _ => none

/-- Reads the parser's preferences. -/
def ParserPreferences.decode (d : Dialect) (default : ParserPreferences) :
    Decoder ParserPreferences :=
  asRecordIn d ["log_diagnostics", "trace_statements"] fun room fields =>
    match fields with
    | [log, trace] => do
      return ⟨← orDefault asBool room default.logDiagnostics log,
        ← orDefault asBool room default.traceStatements trace⟩
    | _ => none

/-- Reads the preferences for events. -/
def LoggingPreferences.decode (d : Dialect) (default : LoggingPreferences) :
    Decoder LoggingPreferences :=
  asRecordIn d
    ["use_structured_logging", "enable_console_logging", "min_log_level", "include_source_context"]
    fun room fields =>
      match fields with
      | [structured, console, level, source] => do
        return ⟨← orDefault asBool room default.structured structured,
          ← orDefault asBool room default.console console,
          ← orDefault (Level.decode d) room default.minLevel level,
          ← orDefault asBool room default.includeSource source⟩
      | _ => none

/-- Reads all preferences. -/
def Preferences.decode (d : Dialect) (default : Preferences) : Decoder Preferences :=
  asRecordIn d ["lexical", "parser", "logging"] fun room fields =>
    match fields with
    | [lexical, parser, logging] => do
      return ⟨← orDefault (LexicalPreferences.decode d default.lexical) room
        default.lexical lexical,
        ← orDefault (ParserPreferences.decode d default.parser) room default.parser parser,
        ← orDefault (LoggingPreferences.decode d default.logging) room default.logging logging⟩
    | _ => none

/-- The preferences that a JSON text gives under an environment. -/
def Preferences.ofJsonText? (env : Environment) (text : String) : Option Preferences :=
  Json.decodeText (Preferences.decode Json.dialect (.ofEnvironment env)) text

/-- The preferences that a TOML document gives under an environment. -/
def Preferences.ofToml? (env : Environment) (text : String) : Option Preferences :=
  Toml.decodeText (Preferences.decode Toml.dialect (.ofEnvironment env)) text

end Frontend
