import Frontend.Token.Basic

/-!
# Program trees

A program is a list of statements. Every node keeps the token it was built from and its span; the
operator of an expression is kept as text beside the token.
-/

set_option autoImplicit false

namespace Frontend

/-- A name where it is used or bound. -/
structure Identifier where
  token : Token
  name : String
  span : Span
  deriving DecidableEq, Repr

/-- An expression. -/
inductive Expr where
  | identifier (node : Identifier)
  | integer (token : Token) (value : Int64) (span : Span)
  | unary (token : Token) (operator : String) (operand : Expr) (span : Span)
  | binary (token : Token) (left : Expr) (operator : String) (right : Expr) (span : Span)
  deriving DecidableEq, Repr

/-- A statement: `let name = value;`, `return value;`, or an expression by itself. The value of a
binding or of a return may be left out. -/
inductive Statement where
  | binding (token : Token) (name : Identifier) (value : Option Expr) (span : Span)
  | giving (token : Token) (value : Option Expr) (span : Span)
  | expression (token : Token) (expression : Expr) (span : Span)
  deriving DecidableEq, Repr

/-- A whole source text. -/
structure Program where
  statements : List Statement := []
  deriving DecidableEq, Repr

/-! ## Tokens and spans of nodes -/

namespace Expr

/-- The token that the expression was built from: a binary expression's is its operator. -/
def token : Expr → Token
  | .identifier node => node.token
  | .integer token _ _ => token
  | .unary token _ _ _ => token
  | .binary token _ _ _ _ => token

/-- The stretch of source that the expression covers. -/
def span : Expr → Span
  | .identifier node => node.span
  | .integer _ _ span => span
  | .unary _ _ _ span => span
  | .binary _ _ _ _ span => span

end Expr

namespace Statement

/-- The first token of the statement. -/
def token : Statement → Token
  | .binding token _ _ _ => token
  | .giving token _ _ => token
  | .expression token _ _ => token

/-- The stretch of source that the statement covers. -/
def span : Statement → Span
  | .binding _ _ _ span => span
  | .giving _ _ span => span
  | .expression _ _ span => span

end Statement

namespace Program

/-- The text of the program's first token, empty for an empty program. -/
def literal (p : Program) : String :=
  match p.statements.head? with
  | some first => first.token.literal
  | none => ""

/-- From the first statement to the last; an empty program has the placeholder span. -/
def span (p : Program) : Span :=
  match p.statements.head?, p.statements.getLast? with
  | some first, some last => first.span.merge last.span
  | _, _ => .placeholder

end Program

end Frontend
