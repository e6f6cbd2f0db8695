import Frontend.Code
import Frontend.Token.Basic

/-!
# Diagnostics

What can be wrong with a statement. A diagnostic points at the token it is about; the parser records
it, leaves the statement out of the program, and goes on.
-/

set_option autoImplicit false

namespace Frontend

/-- Why a statement was left out. -/
inductive Diagnostic where
  /-- Another token stood where the form of the statement wants one of a given kind. -/
  | unexpectedToken (expected actual : Kind) (span : Span)
  /-- A token that starts no operand stood where one must start. -/
  | noOperand (kind : Kind) (span : Span)
  /-- The value of an integer literal does not fit into 64 bits with sign. -/
  | integerRange (literal : String) (span : Span)
  /-- The expression nests deeper than the build allows. -/
  | tooDeep (limit : UInt64) (span : Span)
  deriving DecidableEq, Repr

namespace Diagnostic

/-- The place of the token that the diagnostic is about. -/
def span : Diagnostic → Span
  | .unexpectedToken _ _ span => span
  | .noOperand _ span => span
  | .integerRange _ span => span
  | .tooDeep _ span => span

/-- The code of a diagnostic. -/
def code : Diagnostic → Code
  | .unexpectedToken .. => .unexpectedToken
  | .noOperand .. => .noOperand
  | .integerRange .. => .integerRange
  | .tooDeep .. => .tooDeep

/-- The text of a diagnostic. -/
def message : Diagnostic → String
  | .unexpectedToken expected actual _ =>
    "expected next token " ++ expected.name ++ ", got " ++ actual.name
  | .noOperand kind _ => "no prefix parse function for " ++ kind.name
  | .integerRange literal _ => "could not parse " ++ literal ++ " as int64"
  | .tooDeep limit _ => "expression nesting exceeds maximum depth of " ++ toString limit.toNat

end Diagnostic

end Frontend
