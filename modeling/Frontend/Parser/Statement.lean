import Frontend.Parser.Expression
import Frontend.Token.Lexer

/-!
# Parsing statements

A statement that starts with `let` must go on with a name and `=`; what follows up to the semicolon
is skipped. One that starts with `return` is skipped up to the semicolon as well. Everything else is
an expression, with any number of semicolons after it.

Each statement ends in one of two ways: it is accepted, or it is rejected with one diagnostic. In
both cases at least its first lexeme is used up (`statement_suffix`), so a program is parsed by
going from statement to statement until the end.
-/

set_option autoImplicit false

namespace Frontend.Parser

/-- How a statement came out. -/
inductive Outcome where
  | accepted (statement : Statement)
  | rejected (diagnostic : Diagnostic)
  deriving DecidableEq, Repr

/-- How a statement came out, and how many lexemes were still ahead of the one in hand then. -/
structure Item where
  outcome : Outcome
  ahead : Nat
  deriving DecidableEq, Repr

/-- The span of the semicolon that ends a skipped statement, or of the end of the source. -/
def closing (eof : Lexeme) (rest : List Lexeme) : Span :=
  ((rest.dropWhile (·.kind ≠ .semicolon)).headD eof).span

/-- A form was broken by the first lexeme of `rest`, and the statement is skipped. -/
def broken (eof : Lexeme) (expected : Kind) (rest : List Lexeme) : Item × List Lexeme :=
  let found := rest.headD eof
  (⟨.rejected (.unexpectedToken expected found.kind found.span), rest.length⟩, pastSemicolon rest)

/-- A statement accepted once everything up to the semicolon is skipped. -/
def skipped (statement : Span → Statement) (first eof : Lexeme) (rest : List Lexeme) :
    Item × List Lexeme :=
  let after := pastSemicolon rest
  (⟨.accepted (statement (first.span.merge (closing eof rest))), after.length⟩, after)

/-- What follows `let`. -/
def bindingAfter (first eof : Lexeme) : List Lexeme → Item × List Lexeme
  | [] => broken eof .ident []
  | name :: rest =>
    if name.kind = .ident then
      match rest with
      | [] => broken eof .assign []
      | sign :: rest =>
        if sign.kind = .assign then
          skipped (.binding first.token (nameOf name) none) first eof rest
        else broken eof .assign (sign :: rest)
    else broken eof .ident (name :: rest)

/-- An expression as a statement, with the semicolons after it. -/
def expressionStatement (limit : UInt64) (first eof : Lexeme) (rest : List Lexeme) :
    Item × List Lexeme :=
  match expression limit eof .lowest limit.toNat (first :: rest) with
  | .ok (e, rest) =>
    let after := rest.dropWhile (·.kind = .semicolon)
    (⟨.accepted (.expression first.token e (first.span.merge e.span)), after.length⟩, after)
  | .error rejection =>
    (⟨.rejected rejection.diagnostic, rejection.ahead⟩,
      rejection.rest.dropWhile (·.kind = .semicolon))

/-- The statement that starts with a lexeme, and the lexemes after the statement. -/
def statement (limit : UInt64) (eof first : Lexeme) (rest : List Lexeme) : Item × List Lexeme :=
  match first.kind with
  | .letWord => bindingAfter first eof rest
  | .returnWord => skipped (.giving first.token none) first eof rest
  | _ => expressionStatement limit first eof rest

/-! ## Progress -/

theorem pastSemicolon_suffix (rest : List Lexeme) : pastSemicolon rest <:+ rest :=
  (List.tail_suffix _).trans (List.dropWhile_suffix _)

theorem pastSemicolon_cons_suffix (l : Lexeme) (rest : List Lexeme) :
    pastSemicolon (l :: rest) <:+ rest := by
  unfold pastSemicolon
  rw [List.dropWhile_cons]
  split
  · exact pastSemicolon_suffix rest
  · exact List.suffix_rfl

/-- The lexemes that an attempt leaves over. -/
def Attempt.rest {α : Type} : Attempt α → List Lexeme
  | .ok (_, rest) => rest
  | .error rejection => rejection.rest

/-- An operand uses up a lexeme, if what a unary operator stands before gives none back. -/
theorem operand_suffix (eof : Lexeme) (nested : List Lexeme → Attempt Expr)
    (hn : ∀ rest, (nested rest).rest <:+ rest) (l : Lexeme) (rest : List Lexeme) :
    (operand eof nested (l :: rest)).rest <:+ rest := by
  have h := hn rest
  simp only [operand]
  split
  · exact List.suffix_rfl
  · split <;> exact List.suffix_rfl
  · split <;> rename_i hnested <;> rw [hnested] at h <;> exact h
  · split <;> rename_i hnested <;> rw [hnested] at h <;> exact h
  · exact List.suffix_rfl

/-- Expressions and chains of operators give no lexeme back. -/
theorem expression_chain_suffix (limit : UInt64) (eof : Lexeme) (room : Nat) :
    (∀ least lexemes, (expression limit eof least room lexemes).rest <:+ lexemes) ∧
      ∀ least left lexemes, (chain limit eof least room left lexemes).rest <:+ lexemes := by
  induction room with
  | zero =>
    refine ⟨fun least lexemes => ?_, fun least left lexemes => ?_⟩
    · unfold expression
      exact pastSemicolon_suffix lexemes
    · cases lexemes with
      | nil => simp [chain, Attempt.rest]
      | cons operator rest =>
        unfold chain
        split
        · exact pastSemicolon_suffix (operator :: rest)
        · exact List.suffix_rfl
  | succ room ih =>
    obtain ⟨ihe, ihc⟩ := ih
    refine ⟨fun least lexemes => ?_, fun least left lexemes => ?_⟩
    · unfold expression
      cases lexemes with
      | nil => simp [operand, Attempt.rest]
      | cons l rest =>
        have h := operand_suffix eof _ (fun rest => ihe .unary rest) l rest
        have hrest := List.suffix_cons l rest
        split
        · rename_i left after heq
          rw [heq] at h
          exact ((ihc least left after).trans h).trans hrest
        · rename_i rejection heq
          rw [heq] at h
          exact h.trans hrest
    · cases lexemes with
      | nil => simp [chain, Attempt.rest]
      | cons operator rest =>
        unfold chain
        have h := ihe operator.kind.precedence rest
        have hrest := List.suffix_cons operator rest
        split
        · simp only
          split
          · rename_i right after heq
            rw [heq] at h
            exact ((ihc least (binaryOf left operator right) after).trans h).trans hrest
          · rename_i rejection heq
            rw [heq] at h
            exact h.trans hrest
        · exact List.suffix_rfl

/-- An expression uses up at least one lexeme. -/
theorem expression_suffix (limit : UInt64) (eof : Lexeme) (least : Precedence) (room : Nat)
    (l : Lexeme) (rest : List Lexeme) :
    (expression limit eof least room (l :: rest)).rest <:+ rest := by
  cases room with
  | zero =>
    unfold expression
    exact pastSemicolon_cons_suffix l rest
  | succ room =>
    obtain ⟨ihe, ihc⟩ := expression_chain_suffix limit eof room
    have h := operand_suffix eof _ (fun rest => ihe .unary rest) l rest
    unfold expression
    split
    · rename_i left after heq
      rw [heq] at h
      exact (ihc least left after).trans h
    · rename_i rejection heq
      rw [heq] at h
      exact h

theorem bindingAfter_suffix (first eof : Lexeme) (rest : List Lexeme) :
    (bindingAfter first eof rest).2 <:+ rest := by
  unfold bindingAfter
  split
  · exact pastSemicolon_suffix []
  · rename_i name rest
    have hrest := List.suffix_cons name rest
    split
    · split
      · exact (pastSemicolon_suffix []).trans hrest
      · rename_i sign rest
        split
        · exact ((pastSemicolon_suffix rest).trans (List.suffix_cons sign rest)).trans hrest
        · exact (pastSemicolon_suffix (sign :: rest)).trans hrest
    · exact pastSemicolon_suffix _

/-- A statement uses up its first lexeme. -/
theorem statement_suffix (limit : UInt64) (eof first : Lexeme) (rest : List Lexeme) :
    (statement limit eof first rest).2 <:+ rest := by
  unfold statement
  split
  · exact bindingAfter_suffix first eof rest
  · exact pastSemicolon_suffix rest
  · have h := expression_suffix limit eof .lowest limit.toNat first rest
    unfold expressionStatement
    split
    · rename_i e after heq
      rw [heq] at h
      exact (List.dropWhile_suffix _).trans h
    · rename_i rejection heq
      rw [heq] at h
      exact (List.dropWhile_suffix _).trans h

/-! ## Whole programs -/

/-- The statements of a list of lexemes, one after the other. -/
def items (limit : UInt64) (eof : Lexeme) : List Lexeme → List Item
  | [] => []
  | first :: rest =>
    let result := statement limit eof first rest
    result.1 :: items limit eof result.2
termination_by lexemes => lexemes.length
decreasing_by
  exact Nat.lt_succ_of_le (statement_suffix limit eof first rest).length_le

/-- The program that the accepted statements make up. -/
def programOf (items : List Item) : Program where
  statements := items.filterMap fun item =>
    match item.outcome with
    | .accepted statement => some statement
    | .rejected _ => none

/-- The diagnostics of the rejected statements. -/
def diagnosticsOf (items : List Item) : List Diagnostic :=
  items.filterMap fun item =>
    match item.outcome with
    | .accepted _ => none
    | .rejected diagnostic => some diagnostic

end Frontend.Parser

namespace Frontend

/-- The program of a text and its diagnostics, under a nesting limit. -/
def parse (limit : UInt64) (text : List Char) : Except Fault (Program × List Diagnostic) :=
  (lexemes text).map fun found =>
    let items := Parser.items limit found.2 found.1
    (Parser.programOf items, Parser.diagnosticsOf items)

end Frontend
