import Frontend.Diagnostic
import Frontend.Precedence
import Frontend.Text.Decimal
import Frontend.Tree.Basic

/-!
# Parsing expressions

An expression is an operand, then binary operators with their right operands for as long as the next
operator binds tighter than what stands to the left. An operand is a name, an integer, or `!` or `-`
before an operand.

Nesting is bounded: `room` is how many more levels may be opened. A level is opened by every
expression that is entered and by every operator that is chained on, so the recursion is structural
on `room`. The levels of an operand are given back when it is done, so a tree can be taller than the
room it was parsed with.

Lexemes are a list, and its end is the end of the source; `eof` is the lexeme that stands there.
-/

set_option autoImplicit false

namespace Frontend.Parser

/-- A statement given up: why, how many lexemes were still ahead of the one in hand at that moment,
and the lexemes after the one in hand when parsing goes on. -/
structure Rejection where
  diagnostic : Diagnostic
  ahead : Nat
  rest : List Lexeme

/-- The result of parsing a part of a statement: the part with the lexemes after it, or a
rejection. -/
abbrev Attempt (α : Type) := Except Rejection (α × List Lexeme)

/-- The lexemes after the next semicolon. -/
def pastSemicolon (rest : List Lexeme) : List Lexeme :=
  (rest.dropWhile (·.kind ≠ .semicolon)).tail

/-- The nesting limit is reached at a place: the rest of the statement, which starts in `rest`, is
skipped. -/
def outOfRoom (limit : UInt64) (span : Span) (ahead : Nat) (rest : List Lexeme) : Rejection where
  diagnostic := .tooDeep limit span
  ahead := ahead
  rest := pastSemicolon rest

/-- A name where it is used. -/
def nameOf (l : Lexeme) : Identifier := ⟨l.token, l.literal, l.span⟩

/-- An operator before its operand. -/
def unaryOf (operator : Lexeme) (operand : Expr) : Expr :=
  .unary operator.token operator.literal operand (operator.span.merge operand.span)

/-- An operator between its operands. -/
def binaryOf (left : Expr) (operator : Lexeme) (right : Expr) : Expr :=
  .binary operator.token left operator.literal right (left.span.merge right.span)

/-- An operand; `nested` parses what a unary operator stands before. -/
def operand (eof : Lexeme) (nested : List Lexeme → Attempt Expr) : List Lexeme → Attempt Expr
  | [] => .error ⟨.noOperand eof.kind eof.span, 0, []⟩
  | l :: rest =>
    match l.kind with
    | .ident => .ok (.identifier (nameOf l), rest)
    | .int =>
      match Text.int64? l.literal.toList with
      | some value => .ok (.integer l.token value l.span, rest)
      | none => .error ⟨.integerRange l.literal l.span, rest.length, rest⟩
    | .bang | .minus =>
      match nested rest with
      | .ok (inner, rest) => .ok (unaryOf l inner, rest)
      | .error rejection => .error rejection
    | kind => .error ⟨.noOperand kind l.span, rest.length, rest⟩

mutual

/-- An expression whose operators bind tighter than `least`, with `room` levels to open. -/
def expression (limit : UInt64) (eof : Lexeme) (least : Precedence) :
    Nat → List Lexeme → Attempt Expr
  | 0, lexemes =>
    .error (outOfRoom limit (lexemes.headD eof).span (lexemes.length - 1) lexemes)
  | room + 1, lexemes =>
    match operand eof (fun rest => expression limit eof .unary room rest) lexemes with
    | .ok (left, rest) => chain limit eof least room left rest
    | .error rejection => .error rejection

/-- Operators chained on to a left operand, for as long as they bind tighter than `least`. -/
def chain (limit : UInt64) (eof : Lexeme) (least : Precedence) :
    Nat → Expr → List Lexeme → Attempt Expr
  | _, left, [] => .ok (left, [])
  | room, left, operator :: rest =>
    if least < operator.kind.precedence then
      match room with
      | 0 => .error (outOfRoom limit operator.span (rest.length + 1) (operator :: rest))
      | room + 1 =>
        match expression limit eof operator.kind.precedence room rest with
        | .ok (right, rest) => chain limit eof least room (binaryOf left operator right) rest
        | .error rejection => .error rejection
    else .ok (left, operator :: rest)

end

end Frontend.Parser
