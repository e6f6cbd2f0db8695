import Frontend.Proofs.Tree.Reading

/-!
# Parts of a tree

`Expr.parts` lists an expression with the operands in it at any depth. Each part of an expression
that reads lexemes reads some of them that follow each other, and it is graded and costs no more
than the whole (`Reads.exists_part`), so it can be read by itself where the whole could be read.
-/

set_option autoImplicit false

namespace Frontend

/-- The expression and all expressions in it, each before its operands. -/
def Expr.parts (e : Expr) : List Expr :=
  e :: match e with
    | .identifier _ => []
    | .integer .. => []
    | .unary _ _ operand _ => operand.parts
    | .binary _ left _ right _ => left.parts ++ right.parts

/-- All expressions in a statement. -/
def Statement.parts : Statement → List Expr
  | .binding _ _ value _ => (value.map Expr.parts).getD []
  | .giving _ value _ => (value.map Expr.parts).getD []
  | .expression _ e _ => e.parts

theorem Expr.mem_parts_self (e : Expr) : e ∈ e.parts := by
  rw [parts.eq_def]
  exact List.mem_cons_self

theorem Parser.mem_parts_unaryOf {operator : Lexeme} {operand part : Expr} :
    part ∈ (unaryOf operator operand).parts ↔ part = unaryOf operator operand ∨
    part ∈ operand.parts := by
  rw [unaryOf, Expr.parts, List.mem_cons]

theorem Parser.mem_parts_binaryOf {left right part : Expr} {operator : Lexeme} :
    part ∈ (binaryOf left operator right).parts ↔
      part = binaryOf left operator right ∨ part ∈ left.parts ∨ part ∈ right.parts := by
  rw [binaryOf, Expr.parts, List.mem_cons, List.mem_append]

theorem Reads.exists_part {e : Expr} {ls : List Lexeme} (reads : Reads e ls) (graded : e.Graded) :
    ∀ part ∈ e.parts, ∃ before block after, ls = before ++ (block ++ after) ∧ Reads part block ∧
      part.Graded ∧ part.cost ≤ e.cost := by
  -- the expression itself is a part of it, with nothing around
  have whole : ∀ {e : Expr} {ls : List Lexeme}, Reads e ls → e.Graded → ∃ before block after,
      ls = before ++ (block ++ after) ∧ Reads e block ∧ e.Graded ∧ e.cost ≤ e.cost :=
    fun {e ls} reads graded => ⟨[], ls, [], by simp, reads, graded, Nat.le_refl _⟩
  induction reads with
  | @identifier l kind =>
    intro part hpart
    rw [Expr.parts, List.mem_singleton] at hpart
    rw [hpart]
    exact whole (.identifier kind) graded
  | @integer l value kind range =>
    intro part hpart
    rw [Expr.parts, List.mem_singleton] at hpart
    rw [hpart]
    exact whole (.integer kind range) graded
  | @unary operator operand ls kind inner ih =>
    intro part hpart
    rcases Parser.mem_parts_unaryOf.mp hpart with rfl | hpart
    · exact whole (.unary kind inner) graded
    · obtain ⟨-, gradedOperand⟩ := (Parser.graded_unaryOf operand operator).mp graded
      obtain ⟨before, block, after, rfl, found, gradedPart, cheap⟩ := ih gradedOperand part hpart
      refine ⟨operator :: before, block, after, by simp, found, gradedPart, ?_⟩
      rw [Parser.cost_unaryOf]
      omega
  | @binary left right operator ls rs kind before after ihl ihr =>
    intro part hpart
    obtain ⟨-, -, gradedLeft, gradedRight⟩ := (Parser.graded_binaryOf left right operator).mp graded
    rw [Parser.cost_binaryOf]
    rcases Parser.mem_parts_binaryOf.mp hpart with rfl | hpart | hpart
    · exact whole (.binary kind before after) graded
    · obtain ⟨front, block, back, rfl, found, gradedPart, cheap⟩ := ihl gradedLeft part hpart
      exact ⟨front, block, back ++ operator :: rs, by simp, found, gradedPart, by omega⟩
    · obtain ⟨front, block, back, rfl, found, gradedPart, cheap⟩ := ihr gradedRight part hpart
      exact ⟨ls ++ operator :: front, block, back, by simp, found, gradedPart, by omega⟩

end Frontend
