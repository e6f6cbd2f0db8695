import Frontend.Event.Basic
import Frontend.Parser.Statement
import Frontend.Tree.Render

/-!
# What lexing and parsing report

The lexer reports illegal characters and, once, that the text is used up. The parser reports the
statements it accepts and the diagnostics of those it rejects. Which of this is reported is up to
preferences; none of it has an influence on the result.

A lexer hands out lexemes as the parser asks for them, and the parser looks one lexeme ahead. So
when a statement comes out with `ahead` lexemes left after the one in hand, all lexemes but the last
`ahead` have been handed out, where the end of the text counts as a lexeme: `timeline` puts the
reports into that order.
-/

set_option autoImplicit false

namespace Frontend

/-- A literal, cut to the number of characters that a build shows. -/
def preview (limits : Limits) (literal : String) : String :=
  if literal.toList.length ≤ limits.maxLiteralPreview.toNat then literal
  else String.ofList (literal.toList.take limits.maxLiteralPreview.toNat) ++ "..."

/-- A text is used up, with the counts of its tokens. -/
def Metrics.note (limits : Limits) (m : Metrics) : Event :=
  (Event.success limits .tokenized "Tokenization completed").withContexts
    [("tokens", toString m.total), ("keywords", toString m.keywords),
      ("identifiers", toString m.identifiers), ("integers", toString m.integers),
      ("operators", toString m.operators), ("illegal", toString m.illegal)]

/-- What is reported of a lexeme when it is handed out for the first time; at the end of the text
these are the counts of all tokens. -/
def Lexeme.notes (limits : Limits) (preferences : LexicalPreferences) (counts : Metrics)
    (l : Lexeme) : List Event :=
  match l.kind with
  | .eof => [counts.note limits]
  | .illegal =>
    if preferences.logIllegal then
      [(Event.debug limits "Illegal character in source").withContexts
        [("literal", preview limits l.literal), ("span", l.span.render)]]
    else []
  | _ => []

/-- What a lexer reports when it hands out a lexeme. The end of the text is reported once. -/
def Lexer.notes (limits : Limits) (lexer : Lexer) (l : Lexeme) : List Event :=
  if l.kind = .eof ∧ lexer.ended then []
  else l.notes limits lexer.preferences lexer.metrics

/-- What is reported of a diagnostic. That the nesting limit was reached is remarked on in any
case. -/
def Diagnostic.notes (limits : Limits) (preferences : ParserPreferences) (d : Diagnostic) :
    List Event :=
  let remark :=
    match d with
    | .tooDeep limit _ =>
      [(Event.debug limits "Expression nesting limit reached").withContexts
        [("depth", toString limit.toNat), ("max_depth", toString limit.toNat)]]
    | _ => []
  remark ++
    if preferences.logDiagnostics then [(Event.error limits d.code d.message).withSpan d.span]
    else []

/-- What is reported of an accepted statement. -/
def Statement.notes (limits : Limits) (preferences : ParserPreferences) (s : Statement) :
    List Event :=
  if preferences.traceStatements then
    [(Event.debug limits "Parsed statement").withContexts
      [("statement", s.render), ("span", s.span.render)]]
  else []

/-- What is reported when all statements have come out. -/
def Program.note (limits : Limits) (p : Program) (errors : Nat) : Event :=
  (Event.success limits .treeBuilt "AST construction completed").withContexts
    [("statements", toString p.statements.length), ("errors", toString errors)]

namespace Parser

/-- What is reported of a statement when it comes out. -/
def Outcome.notes (limits : Limits) (preferences : ParserPreferences) : Outcome → List Event
  | .accepted statement => statement.notes limits preferences
  | .rejected diagnostic => diagnostic.notes limits preferences

/-- The reports on lexemes and on statements in the order in which they are made. Of the lexemes
`pending`, which are `left` in number, those are reported before a statement that were handed out
before it came out. -/
def timeline (lexemeNotes : Lexeme → List Event) (outcomeNotes : Outcome → List Event) :
    List Lexeme → Nat → List Item → List Event
  | pending, _, [] => pending.flatMap lexemeNotes
  | pending, left, item :: items =>
    (pending.take (left - item.ahead)).flatMap lexemeNotes ++ outcomeNotes item.outcome
      ++ timeline lexemeNotes outcomeNotes (pending.drop (left - item.ahead)) item.ahead items

end Parser

end Frontend
