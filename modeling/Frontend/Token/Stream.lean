import Frontend.Parser.Notes

/-!
# Pulling a lexer

A lexer can be asked for its next lexeme, the end of the text included; for the next lexeme that is
not the end; for all of these that are left; and for its counts. Each answer comes with what is
reported on the way.
-/

set_option autoImplicit false

namespace Frontend

namespace Lexer

/-- A lexeme that is not the end takes at least one character. -/
theorem length_next_lt {l after : Lexer} {lexeme : Lexeme} (h : l.next = .ok (lexeme, after))
    (more : lexeme.kind ≠ .eof) : after.rest.length < l.rest.length := by
  unfold next at h
  split at h
  · cases h
  · cases h
    exact absurd rfl more
  · rename_i found rest hscan
    cases h
    exact length_scan_lt hscan

/-- The lexemes that are left, without the end, and the lexer when it has handed out the end. -/
def drain (limits : Limits) (l : Lexer) : Except Fault (List Lexeme × List Event × Lexer) :=
  match _h : l.next with
  | .error fault => .error fault
  | .ok (lexeme, after) =>
    if _more : lexeme.kind = .eof then .ok ([], l.notes limits lexeme, after)
    else
      match drain limits after with
      | .error fault => .error fault
      | .ok (lexemes, events, last) =>
        .ok (lexeme :: lexemes, l.notes limits lexeme ++ events, last)
termination_by l.rest.length
decreasing_by exact length_next_lt _h _more

end Lexer

/-- What a lexer can be asked for. -/
inductive Pull where
  | lexeme
  | item
  | items
  | counts
  deriving DecidableEq, Repr

/-- What a lexer answers. There is no item at the end of the text. -/
inductive Pulled where
  | lexeme (l : Lexeme)
  | item (l : Option Lexeme)
  | items (ls : List Lexeme)
  | counts (m : Metrics)
  deriving DecidableEq, Repr

namespace Lexer

/-- The answer to one question, what is reported, and the lexer after it. -/
def pull (limits : Limits) (l : Lexer) : Pull → Except Fault (Pulled × List Event × Lexer)
  | .lexeme =>
    l.next.map fun (lexeme, after) => (.lexeme lexeme, l.notes limits lexeme, after)
  | .item =>
    l.next.map fun (lexeme, after) =>
      (.item (if lexeme.kind = .eof then none else some lexeme), l.notes limits lexeme, after)
  | .items => (l.drain limits).map fun (lexemes, events, after) => (.items lexemes, events, after)
  | .counts => .ok (.counts l.metrics, [], l)

/-- The answers to questions one after the other. -/
def pullAll (limits : Limits) (l : Lexer) :
    List Pull → Except Fault (List Pulled × List Event × Lexer)
  | [] => .ok ([], [], l)
  | question :: questions =>
    match l.pull limits question with
    | .error fault => .error fault
    | .ok (answer, events, after) =>
      (after.pullAll limits questions).map fun (answers, more, last) =>
        (answer :: answers, events ++ more, last)

end Lexer

end Frontend
