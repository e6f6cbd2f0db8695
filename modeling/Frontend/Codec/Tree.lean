import Frontend.Diagnostic
import Frontend.Json.Decoder
import Frontend.Json.Printer
import Frontend.Token.Metrics
import Frontend.Tree.Basic

/-!
# Trees, tokens and diagnostics as JSON

Each type has an encoding, with its fields in a fixed order, and a decoder that accepts it.
-/

set_option autoImplicit false

namespace Frontend

open Json (asRecord asWord64 asWord32 asInt64 asText asOption asList Decoder)

/-! ## Positions, spans, tokens -/

/-- The encoding of a position. -/
def Position.toJson (p : Position) : Json :=
  .record [("offset", .natural p.offset.toNat), ("line", .natural p.line.toNat),
    ("column", .natural p.column.toNat)]

/-- Reads a position. -/
def Position.decode : Decoder Position :=
  asRecord ["offset", "line", "column"] fun room fields =>
    match fields with
    | [some offset, some line, some column] => do
      return ⟨← asWord64 room offset, ← asWord32 room line, ← asWord32 room column⟩
    | _ => none

/-- The encoding of a span. -/
def Span.toJson (s : Span) : Json := .record [("start", s.start.toJson), ("end", s.stop.toJson)]

/-- Reads a span. -/
def Span.decode : Decoder Span :=
  asRecord ["start", "end"] fun room fields =>
    match fields with
    | [some start, some stop] => do
      return ⟨← Position.decode room start, ← Position.decode room stop⟩
    | _ => none

/-- The encoding of a kind. -/
def Kind.toJson (k : Kind) : Json := .text k.tag

/-- Reads a kind. -/
def Kind.decode : Decoder Kind := fun room j => (Json.tag? Json.dialect room j).bind Kind.ofTag?

/-- The encoding of a token. -/
def Token.toJson (t : Token) : Json :=
  .record [("kind", t.kind.toJson), ("literal", .text t.literal)]

/-- Reads a token. -/
def Token.decode : Decoder Token :=
  asRecord ["kind", "literal"] fun room fields =>
    match fields with
    | [some kind, some literal] => do return ⟨← Kind.decode room kind, ← asText room literal⟩
    | _ => none

/-- The encoding of a lexeme. -/
def Lexeme.toJson (l : Lexeme) : Json :=
  .record [("value", l.token.toJson), ("span", l.span.toJson)]

/-- Reads a lexeme. -/
def Lexeme.decode : Decoder Lexeme :=
  asRecord ["value", "span"] fun room fields =>
    match fields with
    | [some token, some span] => do return ⟨← Token.decode room token, ← Span.decode room span⟩
    | _ => none

/-! ## Expressions, statements, programs -/

/-- The encoding of a name. -/
def Identifier.toJson (i : Identifier) : Json :=
  .record [("token", i.token.toJson), ("value", .text i.name), ("span", i.span.toJson)]

/-- Reads a name. -/
def Identifier.decode : Decoder Identifier :=
  asRecord ["token", "value", "span"] fun room fields =>
    match fields with
    | [some token, some name, some span] => do
      return ⟨← Token.decode room token, ← asText room name, ← Span.decode room span⟩
    | _ => none

/-- The encoding of an expression. -/
def Expr.toJson : Expr → Json
  | .identifier node => .tagged "Identifier" node.toJson
  | .integer token value span =>
    .tagged "Integer"
      (.record [("token", token.toJson), ("value", .integer value.toInt), ("span", span.toJson)])
  | .unary token operator operand span =>
    .tagged "Prefix"
      (.record [("token", token.toJson), ("operator", .text operator), ("right", operand.toJson),
        ("span", span.toJson)])
  | .binary token left operator right span =>
    .tagged "Infix"
      (.record [("token", token.toJson), ("left", left.toJson), ("operator", .text operator),
        ("right", right.toJson), ("span", span.toJson)])

/-- Reads an integer literal. -/
def Expr.decodeInteger : Decoder Expr :=
  asRecord ["token", "value", "span"] fun room fields =>
    match fields with
    | [some token, some value, some span] => do
      return .integer (← Token.decode room token) (← asInt64 room value) (← Span.decode room span)
    | _ => none

/-- Reads a unary expression; `nested` reads its operand. -/
def Expr.decodeUnary (nested : Json → Option Expr) : Decoder Expr :=
  asRecord ["token", "operator", "right", "span"] fun room fields =>
    match fields with
    | [some token, some operator, some operand, some span] => do
      return .unary (← Token.decode room token) (← asText room operator) (← nested operand)
        (← Span.decode room span)
    | _ => none

/-- Reads a binary expression; `nested` reads its operands. -/
def Expr.decodeBinary (nested : Json → Option Expr) : Decoder Expr :=
  asRecord ["token", "left", "operator", "right", "span"] fun room fields =>
    match fields with
    | [some token, some left, some operator, some right, some span] => do
      return .binary (← Token.decode room token) (← nested left) (← asText room operator)
        (← nested right) (← Span.decode room span)
    | _ => none

/-- Reads an expression. The tag and the record inside each open a level, so the operands have two
levels less. -/
def Expr.decode : Decoder Expr
  | room + 2, j =>
    match j.payload? with
    | some ("Identifier", body) => (Identifier.decode (room + 1) body).map .identifier
    | some ("Integer", body) => Expr.decodeInteger (room + 1) body
    | some ("Prefix", body) => Expr.decodeUnary (fun j => Expr.decode room j) (room + 1) body
    | some ("Infix", body) => Expr.decodeBinary (fun j => Expr.decode room j) (room + 1) body
    | _ => none
  | _, _ => none

/-- The encoding of a value that may be left out. -/
def valueToJson : Option Expr → Json
  | some value => value.toJson
  | none => .null

/-- The encoding of a statement. -/
def Statement.toJson : Statement → Json
  | .binding token name value span =>
    .tagged "Let"
      (.record [("token", token.toJson), ("name", name.toJson), ("value", valueToJson value),
        ("span", span.toJson)])
  | .giving token value span =>
    .tagged "Return"
      (.record [("token", token.toJson), ("value", valueToJson value), ("span", span.toJson)])
  | .expression token body span =>
    .tagged "Expression"
      (.record [("token", token.toJson), ("expression", body.toJson), ("span", span.toJson)])

/-- Reads a value that may be missing or null. -/
def decodeValue (room : Nat) : Option Json → Option (Option Expr)
  | some j => asOption Expr.decode room j
  | none => some none

/-- Reads a binding. -/
def Statement.decodeBinding : Decoder Statement :=
  asRecord ["token", "name", "value", "span"] fun room fields =>
    match fields with
    | [some token, some name, value, some span] => do
      return .binding (← Token.decode room token) (← Identifier.decode room name)
        (← decodeValue room value) (← Span.decode room span)
    | _ => none

/-- Reads a return. -/
def Statement.decodeGiving : Decoder Statement :=
  asRecord ["token", "value", "span"] fun room fields =>
    match fields with
    | [some token, value, some span] => do
      return .giving (← Token.decode room token) (← decodeValue room value)
        (← Span.decode room span)
    | _ => none

/-- Reads an expression used as a statement. -/
def Statement.decodeExpression : Decoder Statement :=
  asRecord ["token", "expression", "span"] fun room fields =>
    match fields with
    | [some token, some body, some span] => do
      return .expression (← Token.decode room token) (← Expr.decode room body)
        (← Span.decode room span)
    | _ => none

/-- Reads a statement. -/
def Statement.decode : Decoder Statement
  | room + 1, j =>
    match j.payload? with
    | some ("Let", body) => Statement.decodeBinding room body
    | some ("Return", body) => Statement.decodeGiving room body
    | some ("Expression", body) => Statement.decodeExpression room body
    | _ => none
  | 0, _ => none

/-- The encoding of a program. -/
def Program.toJson (p : Program) : Json :=
  .record [("statements", .array (p.statements.map Statement.toJson))]

/-- Reads a program. -/
def Program.decode : Decoder Program :=
  asRecord ["statements"] fun room fields =>
    match fields with
    | [some statements] => (asList Statement.decode room statements).map Program.mk
    | _ => none

/-! ## Diagnostics and counts -/

/-- The encoding of a diagnostic. -/
def Diagnostic.toJson : Diagnostic → Json
  | .unexpectedToken expected actual span =>
    .tagged "UnexpectedToken"
      (.record [("expected", expected.toJson), ("actual", actual.toJson), ("span", span.toJson)])
  | .noOperand kind span =>
    .tagged "NoPrefixParseFn" (.record [("kind", kind.toJson), ("span", span.toJson)])
  | .integerRange literal span =>
    .tagged "IntegerConversion" (.record [("literal", .text literal), ("span", span.toJson)])
  | .tooDeep limit span =>
    .tagged "NestingTooDeep" (.record [("max_depth", .natural limit.toNat), ("span", span.toJson)])

/-- Reads the parts of an unexpected token. -/
def Diagnostic.decodeUnexpected : Decoder Diagnostic :=
  asRecord ["expected", "actual", "span"] fun room fields =>
    match fields with
    | [some expected, some actual, some span] => do
      return .unexpectedToken (← Kind.decode room expected) (← Kind.decode room actual)
        (← Span.decode room span)
    | _ => none

/-- Reads one part and the span of any other diagnostic. -/
def Diagnostic.decodeWith {α : Type} (name : String) (part : Decoder α)
    (build : α → Span → Diagnostic) : Decoder Diagnostic :=
  asRecord [name, "span"] fun room fields =>
    match fields with
    | [some value, some span] => do return build (← part room value) (← Span.decode room span)
    | _ => none

/-- Reads a diagnostic. -/
def Diagnostic.decode : Decoder Diagnostic
  | room + 1, j =>
    match j.payload? with
    | some ("UnexpectedToken", body) => decodeUnexpected room body
    | some ("NoPrefixParseFn", body) => decodeWith "kind" Kind.decode .noOperand room body
    | some ("IntegerConversion", body) => decodeWith "literal" asText .integerRange room body
    | some ("NestingTooDeep", body) => decodeWith "max_depth" asWord64 .tooDeep room body
    | _ => none
  | 0, _ => none

/-- The encoding of token counts. -/
def Metrics.toJson (m : Metrics) : Json :=
  .record [("total_tokens", .natural m.total), ("keyword_tokens", .natural m.keywords),
    ("identifier_tokens", .natural m.identifiers), ("integer_tokens", .natural m.integers),
    ("operator_tokens", .natural m.operators), ("delimiter_tokens", .natural m.delimiters),
    ("illegal_tokens", .natural m.illegal),
    ("operator_usage_patterns", .record (m.operatorUsage.map fun (text, n) => (text, .natural n)))]

/-- Reads counts by text; of two counts for one text the later one holds. -/
def Metrics.decodeUsage : Decoder (List (String × Nat))
  | room + 1, .object members =>
    members.foldlM
      (fun usage (key, value) => do
        let text ← key
        let n ← asWord64 room value
        return usage.filter (·.1 != text) ++ [(text, n.toNat)])
      []
  | _, _ => none

/-- Reads token counts. -/
def Metrics.decode : Decoder Metrics :=
  asRecord
    ["total_tokens", "keyword_tokens", "identifier_tokens", "integer_tokens", "operator_tokens",
      "delimiter_tokens", "illegal_tokens", "operator_usage_patterns"]
    fun room fields =>
      match fields with
      | [some total, some keywords, some identifiers, some integers, some operators,
          some delimiters, some illegal, some usage] => do
        return {
          total := (← asWord64 room total).toNat
          keywords := (← asWord64 room keywords).toNat
          identifiers := (← asWord64 room identifiers).toNat
          integers := (← asWord64 room integers).toNat
          operators := (← asWord64 room operators).toNat
          delimiters := (← asWord64 room delimiters).toNat
          illegal := (← asWord64 room illegal).toNat
          operatorUsage := ← Metrics.decodeUsage room usage }
      | _ => none

end Frontend
