import Frontend.Tree.Basic

/-!
# Trees as text

Every unary and every binary expression is written in parentheses, so the text shows how the
operators were grouped. Statements follow each other without a separator.
-/

set_option autoImplicit false

namespace Frontend

/-- An expression in full parentheses. An integer is written as it stood in the source. -/
def Expr.render : Expr → String
  | .identifier node => node.name
  | .integer token _ _ => token.literal
  | .unary _ operator operand _ => "(" ++ operator ++ operand.render ++ ")"
  | .binary _ left operator right _ =>
    "(" ++ left.render ++ " " ++ operator ++ " " ++ right.render ++ ")"

/-- A value that may be left out. -/
def renderValue : Option Expr → String
  | some value => value.render
  | none => ""

/-- A statement. Bindings and returns end in a semicolon, expressions do not. -/
def Statement.render : Statement → String
  | .binding token name value _ =>
    token.literal ++ " " ++ name.name ++ " = " ++ renderValue value ++ ";"
  | .giving token value _ => token.literal ++ " " ++ renderValue value ++ ";"
  | .expression _ body _ => body.render

/-- A program. -/
def Program.render (p : Program) : String := String.join (p.statements.map Statement.render)

/-! ## Nodes in order -/

/-- What can be said of any node: its sort, the text of its token, its span and its rendering. -/
structure Node where
  sort : String
  literal : String
  span : Span
  text : String
  deriving DecidableEq, Repr

/-- A name as a node. -/
def Identifier.node (i : Identifier) : Node := ⟨"Identifier", i.token.literal, i.span, i.name⟩

/-- The sort of an expression. -/
def Expr.sort : Expr → String
  | .identifier _ => "Identifier"
  | .integer .. => "IntegerLiteral"
  | .unary .. => "PrefixExpression"
  | .binary .. => "InfixExpression"

/-- An expression as a node of a given sort. -/
def Expr.node (e : Expr) (sort : String) : Node := ⟨sort, e.token.literal, e.span, e.render⟩

/-- The nodes of an expression, each before its operands: the expression as such, then as its
sort. -/
def Expr.nodes (e : Expr) : List Node :=
  e.node "Expression" :: e.node e.sort ::
    match e with
    | .identifier _ => []
    | .integer .. => []
    | .unary _ _ operand _ => operand.nodes
    | .binary _ left _ right _ => left.nodes ++ right.nodes

/-- The sort of a statement. -/
def Statement.sort : Statement → String
  | .binding .. => "LetStatement"
  | .giving .. => "ReturnStatement"
  | .expression .. => "ExpressionStatement"

/-- A statement as a node of a given sort. -/
def Statement.node (s : Statement) (sort : String) : Node :=
  ⟨sort, s.token.literal, s.span, s.render⟩

/-- The nodes of a statement: the statement as such, then as its sort, then its parts in order. -/
def Statement.nodes (s : Statement) : List Node :=
  s.node "Statement" :: s.node s.sort ::
    match s with
    | .binding _ name value _ => name.node :: (value.map Expr.nodes).getD []
    | .giving _ value _ => (value.map Expr.nodes).getD []
    | .expression _ body _ => body.nodes

/-- The nodes of a program, the program first. -/
def Program.nodes (p : Program) : List Node :=
  ⟨"Program", p.literal, p.span, p.render⟩ :: p.statements.flatMap Statement.nodes

end Frontend
