import Frontend.Codec.Tree
import Frontend.Excerpt
import Frontend.Parser.Window

/-!
# Reports on source texts

To process a text is to lex and parse it. The report has the program, the diagnostics and the counts
of tokens, and it can be written out as text or as JSON.
-/

set_option autoImplicit false

namespace Frontend

/-- All that comes of processing a text. -/
structure Report where
  source : List Char
  program : Program
  diagnostics : List Diagnostic
  metrics : Metrics

namespace Report

/-- The number of tokens, without the end of the text. -/
def tokenCount (r : Report) : Nat := r.metrics.total

/-- Whether no statement was rejected. -/
def isClean (r : Report) : Bool := r.diagnostics.isEmpty

/-- The diagnostics as text, each with the part of the source that it is about. -/
def render (r : Report) : String :=
  if r.isClean then ""
  else
    let lines := Excerpt.pieces r.source
    String.intercalate "\n" (r.diagnostics.map fun d => Excerpt.render lines d.span d.message)

/-- The encoding of a diagnostic in a report. -/
def diagnosticJson (d : Diagnostic) : Json :=
  .record [("code", .text d.code.name), ("message", .text d.message), ("span", d.span.toJson)]

/-- The encoding of a report; `duration` is the number of milliseconds that processing took. -/
def toJson (duration : String) (r : Report) : Json :=
  .record [("program", r.program.toJson), ("rendered", .text r.program.render),
    ("diagnostics", .array (r.diagnostics.map diagnosticJson)),
    ("token_count", .natural r.tokenCount), ("lexical_metrics", r.metrics.toJson),
    ("duration_ms", .decimal duration)]

/-- What is reported when a text has been processed. -/
def note (limits : Limits) (duration : String) (r : Report) : Event :=
  (Event.success limits .sourceProcessed "Source processing completed").withContexts
    [("bytes", toString (Text.byteSize r.source)), ("tokens", toString r.tokenCount),
      ("statements", toString r.program.statements.length),
      ("diagnostics", toString r.diagnostics.length), ("duration_ms", duration)]

end Report

/-- Processes a text, which takes a number of milliseconds, and gives the report and the events on
the way. -/
def process (limits : Limits) (preferences : Preferences) (duration : String) (text : List Char) :
    Except Fault (Report × List Event) := do
  let (parser, opening) ← Parser.ofLexer limits preferences.parser
    (.ofText preferences.lexical text)
  let pass ← parser.program limits
  let report : Report :=
    { source := text
      program := pass.program
      diagnostics := pass.parser.diagnostics
      metrics := pass.parser.lexer.metrics }
  return (report, opening ++ pass.events ++ [report.note limits duration])

end Frontend
