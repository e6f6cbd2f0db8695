import Frontend.Preferences
import Frontend.Token.Basic

/-!
# Token counts

How many tokens of each class a lexer has handed out. The end of the text is not counted. The count
per class is kept only on request, and so is the count per operator text.
-/

set_option autoImplicit false

namespace Frontend

/-- Counts of tokens, all of them and by class. -/
structure Metrics where
  total : Nat := 0
  keywords : Nat := 0
  identifiers : Nat := 0
  integers : Nat := 0
  operators : Nat := 0
  delimiters : Nat := 0
  illegal : Nat := 0
  /-- How often each operator text occurred, in order of first occurrence. -/
  operatorUsage : List (String × Nat) := []
  deriving DecidableEq, Repr

namespace Metrics

/-- One more occurrence of a text. -/
def bump (text : String) : List (String × Nat) → List (String × Nat)
  | [] => [(text, 1)]
  | (other, n) :: rest =>
    if other = text then (other, n + 1) :: rest else (other, n) :: bump text rest

/-- The counts after one more token. -/
def record (preferences : LexicalPreferences) (m : Metrics) (t : Token) : Metrics :=
  let m := { m with total := m.total + 1 }
  if !preferences.detailedMetrics then m
  else if t.kind.isKeyword then { m with keywords := m.keywords + 1 }
  else if t.kind.isOperator then
    { m with
      operators := m.operators + 1
      operatorUsage :=
        if preferences.trackOperators then bump t.literal m.operatorUsage else m.operatorUsage }
  else if t.kind.isDelimiter then { m with delimiters := m.delimiters + 1 }
  else
    match t.kind with
    | .ident => { m with identifiers := m.identifiers + 1 }
    | .int => { m with integers := m.integers + 1 }
    | .illegal => { m with illegal := m.illegal + 1 }
    | _ => m

end Metrics

end Frontend
