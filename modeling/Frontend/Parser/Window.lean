import Frontend.Parser.Notes

/-!
# A parser on a lexer

A parser takes over a lexer, wherever it stands, and asks it for two lexemes at once: one in hand
and one ahead. `Parser.program` parses everything up to the end of the text. After that nothing is
left, so another program parsed from the same parser is empty.
-/

set_option autoImplicit false

namespace Frontend

/-- The lexer when it has handed out the lexemes of `rest` and the end. -/
def Lexer.atEnd (l : Lexer) (rest : List Lexeme) (eof : Lexeme) : Lexer :=
  { l with
    rest := []
    position := eof.span.start
    metrics := rest.foldl (fun m x => m.record l.preferences x.token) l.metrics
    ended := true }

/-- A parser: a lexer, the lexemes that it has handed out and that are not parsed yet, without the
end of the text, and the diagnostics found so far. -/
structure Parser where
  lexer : Lexer
  window : List Lexeme
  preferences : ParserPreferences
  diagnostics : List Diagnostic := []

namespace Parser

/-- What comes of parsing up to the end: a program, the parser after it, and what was reported. -/
structure Pass where
  program : Program
  parser : Parser
  events : List Event

/-- The parser that takes over a lexer, and what is reported of the two lexemes it asks for. -/
def ofLexer (limits : Limits) (preferences : ParserPreferences) (lexer : Lexer) :
    Except Fault (Parser × List Event) := do
  let (first, afterFirst) ← lexer.next
  let (second, afterSecond) ← afterFirst.next
  let parser : Parser :=
    { lexer := afterSecond
      window := [first, second].filter (·.kind ≠ .eof)
      preferences := preferences }
  return (parser, lexer.notes limits first ++ afterFirst.notes limits second)

/-- Parses everything up to the end of the text. -/
def program (limits : Limits) (p : Parser) : Except Fault Pass := do
  let (rest, eof) ← p.lexer.remaining
  let items := items limits.maxParseDepth eof (p.window ++ rest)
  let lexer := p.lexer.atEnd rest eof
  let pending := if p.lexer.ended then [] else rest ++ [eof]
  let program := programOf items
  let diagnostics := p.diagnostics ++ diagnosticsOf items
  let events :=
    timeline (Lexeme.notes limits lexer.preferences lexer.metrics)
      (Outcome.notes limits p.preferences) pending pending.length items
  return {
    program := program
    parser := { p with lexer := lexer, window := [], diagnostics := diagnostics }
    events := events ++ [program.note limits diagnostics.length] }

end Parser

end Frontend
