import Frontend.Event.Basic
import Frontend.Json.Printer

/-!
# Events as text

An event is written on one line, in detail over several lines, or as one JSON object. The fields of
the object stand in increasing order of their names.
-/

set_option autoImplicit false

namespace Frontend.Event

/-- A truth value in text. -/
def renderBool (b : Bool) : String := if b then "true" else "false"

/-- An event as `[LEVEL] CODE - message`, followed by the place if it has one. -/
def format (e : Event) : String :=
  let place :=
    match e.span with
    | some span => " at " ++ span.start.render
    | none => ""
  "[" ++ e.level.name ++ "] " ++ e.code.name ++ " - " ++ e.message ++ place

/-- An event with what the register says of its code, and its context. Texts that only stand for an
unregistered code are left out. -/
def formatDetailed (e : Event) : String :=
  let entry := e.code.entry
  let recoverable :=
    if e.level = .error then "\n  Recoverable: " ++ renderBool entry.recoverable else ""
  let description :=
    if entry.description = "Unknown error" then "" else "\n  Description: " ++ entry.description
  let action :=
    if entry.action = "No specific action available" then ""
    else "\n  Recommended action: " ++ entry.action
  let context :=
    if e.context.isEmpty then ""
    else
      "\n  Context:"
        ++ String.join (e.context.map fun (key, value) => "\n    " ++ key ++ ": " ++ value)
  e.format ++ "\n  Category: " ++ entry.category ++ "\n  Severity: " ++ entry.severity.name
    ++ recoverable ++ description ++ action ++ context

/-- A span with its six coordinates by name. -/
def spanJson (s : Span) : Json :=
  .record [("end_column", .natural s.stop.column.toNat), ("end_line", .natural s.stop.line.toNat),
    ("end_offset", .natural s.stop.offset.toNat), ("start_column", .natural s.start.column.toNat),
    ("start_line", .natural s.start.line.toNat), ("start_offset", .natural s.start.offset.toNat)]

/-- What the register says of an error. -/
def metadataJson (entry : CodeEntry) : Json :=
  .record [("description", .text entry.description), ("recommended_action", .text entry.action),
    ("recoverable", .bool entry.recoverable), ("requires_halt", .bool entry.requiresHalt)]

/-- An event as a JSON object, with the time it was made. -/
def toJson (time : String) (e : Event) : Json :=
  let entry := e.code.entry
  let context :=
    if e.context.isEmpty then []
    else [("context", Json.record (e.context.map fun (key, value) => (key, .text value)))]
  let metadata := if e.level = .error then [("error_metadata", metadataJson entry)] else []
  let span :=
    match e.span with
    | some span => [("span", spanJson span)]
    | none => []
  .record
    ([("category", .text entry.category), ("code", .text e.code.name)] ++ context ++ metadata
      ++ [("level", .text e.level.name), ("message", .text e.message),
        ("severity", .text entry.severity.name)]
      ++ span ++ [("timestamp", .text time)])

/-- An event as one line of JSON. -/
def formatJson (time : String) (e : Event) : String := (e.toJson time).compact

end Frontend.Event
