import Frontend.Proofs.Parser.Program
import Frontend.Proofs.Tree.Shape

/-!
# Places have no influence on parsing

The parser decides by the tokens of its lexemes and copies their spans into the tree. So to parse
lexemes whose spans are all replaced by the placeholder is the same as to parse and to replace the
spans afterwards (`items_bare`), and what is parsed from lexemes with the same tokens is the same up
to spans (`items_bare_eq`).
-/

set_option autoImplicit false

namespace Frontend

/-! ## Values without places -/

def Lexeme.bare (l : Lexeme) : Lexeme := ⟨l.token, .placeholder⟩

/-- The statement with every span replaced by the placeholder. -/
def Statement.bare : Statement → Statement
  | .binding token name value _ =>
    .binding token { name with span := .placeholder } (value.map Expr.bare) .placeholder
  | .giving token value _ => .giving token (value.map Expr.bare) .placeholder
  | .expression token e _ => .expression token e.bare .placeholder

def Diagnostic.bare : Diagnostic → Diagnostic
  | .unexpectedToken expected actual _ => .unexpectedToken expected actual .placeholder
  | .noOperand kind _ => .noOperand kind .placeholder
  | .integerRange literal _ => .integerRange literal .placeholder
  | .tooDeep limit _ => .tooDeep limit .placeholder

namespace Lexeme

@[simp] theorem kind_bare (l : Lexeme) : l.bare.kind = l.kind := rfl

@[simp] theorem literal_bare (l : Lexeme) : l.bare.literal = l.literal := rfl

@[simp] theorem token_bare (l : Lexeme) : l.bare.token = l.token := rfl

@[simp] theorem span_bare (l : Lexeme) : l.bare.span = .placeholder := rfl

end Lexeme

@[simp] theorem Expr.span_bare (e : Expr) : e.bare.span = .placeholder := by
  cases e <;> rfl

namespace Parser

variable {limit : UInt64} {eof : Lexeme}

def Rejection.bare (r : Rejection) : Rejection :=
  ⟨r.diagnostic.bare, r.ahead, r.rest.map Lexeme.bare⟩

/-- What comes of an attempt, with every span replaced by the placeholder. -/
def Attempt.bare : Attempt Expr → Attempt Expr
  | .ok (e, rest) => .ok (e.bare, rest.map Lexeme.bare)
  | .error rejection => .error rejection.bare

def Outcome.bare : Outcome → Outcome
  | .accepted statement => .accepted statement.bare
  | .rejected diagnostic => .rejected diagnostic.bare

def Item.bare (item : Item) : Item := ⟨item.outcome.bare, item.ahead⟩

/-! ## Skipping -/

theorem dropWhile_kind_bare (p : Kind → Bool) (ls : List Lexeme) :
    (ls.map Lexeme.bare).dropWhile (fun l => p l.kind) =
      (ls.dropWhile fun l => p l.kind).map Lexeme.bare :=
  List.dropWhile_map

theorem pastSemicolon_bare (ls : List Lexeme) :
    pastSemicolon (ls.map Lexeme.bare) = (pastSemicolon ls).map Lexeme.bare := by
  unfold pastSemicolon
  rw [dropWhile_kind_bare (fun kind => decide (kind ≠ .semicolon)), List.map_tail]

theorem headD_bare (ls : List Lexeme) :
    (ls.map Lexeme.bare).headD eof.bare = (ls.headD eof).bare := by
  cases ls <;> rfl

theorem outOfRoom_bare (span : Span) (ahead : Nat) (ls : List Lexeme) :
    outOfRoom limit .placeholder ahead (ls.map Lexeme.bare) =
      (outOfRoom limit span ahead ls).bare := by
  unfold outOfRoom
  rw [pastSemicolon_bare]
  rfl

/-! ## Expressions -/

theorem merge_placeholder : Span.merge .placeholder .placeholder = .placeholder := by
  simp [Span.merge]

theorem unaryOf_bare (operator : Lexeme) (e : Expr) :
    unaryOf operator.bare e.bare = (unaryOf operator e).bare := by
  simp [unaryOf, Expr.bare, merge_placeholder]

theorem binaryOf_bare (left : Expr) (operator : Lexeme) (right : Expr) :
    binaryOf left.bare operator.bare right.bare = (binaryOf left operator right).bare := by
  simp [binaryOf, Expr.bare, merge_placeholder]

theorem operand_bare {nested nested' : List Lexeme → Attempt Expr}
    (hn : ∀ ls, nested' (ls.map Lexeme.bare) = Attempt.bare (nested ls)) (ls : List Lexeme) :
    operand eof.bare nested' (ls.map Lexeme.bare) = Attempt.bare (operand eof nested ls) := by
  cases ls with
  | nil => rfl
  | cons l rest =>
    cases unary : l.kind.isUnary with
    | true =>
      have unary' : l.bare.kind.isUnary := unary
      rw [List.map_cons, operand_unary unary, operand_unary unary', hn rest]
      cases nested rest with
      | error rejection => rfl
      | ok found =>
        change Except.ok _ = Except.ok _
        rw [unaryOf_bare]
    | false =>
      simp only [List.map_cons, operand, Lexeme.kind_bare, Lexeme.literal_bare]
      cases kind : l.kind
      case ident => rfl
      case int =>
        cases Text.int64? l.literal.toList with
        | none => simp [Attempt.bare, Rejection.bare, Diagnostic.bare]
        | some value => rfl
      case bang | minus =>
        rw [kind] at unary
        cases unary
      all_goals simp [Attempt.bare, Rejection.bare, Diagnostic.bare]

theorem chain_stops_bare {least : Precedence} {ls : List Lexeme} (stops : Stops least ls) :
    Stops least (ls.map Lexeme.bare) := by
  intro l hl
  cases ls with
  | nil => cases hl
  | cons first ls =>
    cases hl
    exact stops first rfl

theorem expression_chain_bare (room : Nat) :
    (∀ least ls, expression limit eof.bare least room (ls.map Lexeme.bare) =
      Attempt.bare (expression limit eof least room ls)) ∧
    (∀ least left ls, chain limit eof.bare least room left.bare (ls.map Lexeme.bare) =
      Attempt.bare (chain limit eof least room left ls)) := by
  -- a chain that stops leaves everything as it is
  have stopped : ∀ room least left ls, Stops least ls →
      chain limit eof.bare least room left.bare (ls.map Lexeme.bare) =
        Attempt.bare (chain limit eof least room left ls) := by
    intro room least left ls stops
    rw [chain_of_stops stops, chain_of_stops (chain_stops_bare stops)]
    rfl
  induction room with
  | zero =>
    refine ⟨fun least ls => ?_, fun least left ls => ?_⟩
    · rw [expression, expression, headD_bare, Lexeme.span_bare, List.length_map,
        outOfRoom_bare (ls.headD eof).span]
      rfl
    · rcases stops_or_cons least ls with stops | ⟨operator, rest, rfl, hleast⟩
      · exact stopped 0 least left ls stops
      · have hbare : least < operator.bare.kind.precedence := hleast
        rw [List.map_cons, chain, chain, if_pos hleast, if_pos hbare, Lexeme.span_bare,
          List.length_map, ← List.map_cons, outOfRoom_bare operator.span]
        rfl
  | succ room ih =>
    obtain ⟨ihe, ihc⟩ := ih
    refine ⟨fun least ls => ?_, fun least left ls => ?_⟩
    · rw [expression, expression, operand_bare (fun ls => ihe .unary ls)]
      cases operand eof (fun rest => expression limit eof .unary room rest) ls with
      | error rejection => rfl
      | ok found => exact ihc least found.1 found.2
    · rcases stops_or_cons least ls with stops | ⟨operator, rest, rfl, hleast⟩
      · exact stopped (room + 1) least left ls stops
      · have hbare : least < operator.bare.kind.precedence := hleast
        rw [List.map_cons, chain_cons hleast, chain_cons hbare, Lexeme.kind_bare, ihe]
        cases expression limit eof operator.kind.precedence room rest with
        | error rejection => rfl
        | ok found =>
          have linked := ihc least (binaryOf left operator found.1) found.2
          rw [← binaryOf_bare] at linked
          exact linked

theorem expression_bare (least : Precedence) (room : Nat) (ls : List Lexeme) :
    expression limit eof.bare least room (ls.map Lexeme.bare) =
      Attempt.bare (expression limit eof least room ls) :=
  (expression_chain_bare room).1 least ls

/-! ## Statements -/

theorem closing_bare (ls : List Lexeme) : closing eof.bare (ls.map Lexeme.bare) = .placeholder := by
  unfold closing
  rw [dropWhile_kind_bare (fun kind => decide (kind ≠ .semicolon)), headD_bare]
  rfl

/-- What a statement gives, with every span replaced by the placeholder. -/
def bareResult (result : Item × List Lexeme) : Item × List Lexeme :=
  (result.1.bare, result.2.map Lexeme.bare)

theorem broken_bare (expected : Kind) (rest : List Lexeme) :
    broken eof.bare expected (rest.map Lexeme.bare) = bareResult (broken eof expected rest) := by
  unfold broken
  rw [headD_bare, pastSemicolon_bare, List.length_map]
  rfl

theorem skipped_bare {build build' : Span → Statement} (first : Lexeme) (rest : List Lexeme)
    (h : ∀ span, build' .placeholder = (build span).bare) :
    skipped build' first.bare eof.bare (rest.map Lexeme.bare) =
      bareResult (skipped build first eof rest) := by
  simp only [skipped, closing_bare, pastSemicolon_bare, List.length_map, Lexeme.span_bare,
    merge_placeholder, h (first.span.merge (closing eof rest))]
  rfl

theorem bindingAfter_bare (first : Lexeme) (rest : List Lexeme) :
    bindingAfter first.bare eof.bare (rest.map Lexeme.bare) =
      bareResult (bindingAfter first eof rest) := by
  cases rest with
  | nil => exact broken_bare .ident []
  | cons name rest =>
    by_cases named : name.kind = .ident
    · have named' : name.bare.kind = .ident := named
      cases rest with
      | nil =>
        rw [bindingAfter_ended named, List.map_cons, List.map_nil, bindingAfter_ended named']
        exact broken_bare .assign []
      | cons sign rest =>
        rw [List.map_cons, List.map_cons]
        by_cases signed : sign.kind = .assign
        · have signed' : sign.bare.kind = .assign := signed
          rw [bindingAfter_signed named signed, bindingAfter_signed named' signed']
          exact skipped_bare first rest fun span => rfl
        · have signed' : sign.bare.kind ≠ .assign := signed
          rw [bindingAfter_unsigned named signed, bindingAfter_unsigned named' signed']
          exact broken_bare .assign (sign :: rest)
    · have named' : name.bare.kind ≠ .ident := named
      rw [bindingAfter_unnamed named, List.map_cons, bindingAfter_unnamed named']
      exact broken_bare .ident (name :: rest)

theorem expressionStatement_bare (first : Lexeme) (rest : List Lexeme) :
    expressionStatement limit first.bare eof.bare (rest.map Lexeme.bare) =
      bareResult (expressionStatement limit first eof rest) := by
  have parsed : expression limit eof.bare .lowest limit.toNat (first.bare :: rest.map Lexeme.bare) =
      Attempt.bare (expression limit eof .lowest limit.toNat (first :: rest)) :=
    expression_bare .lowest limit.toNat (first :: rest)
  unfold expressionStatement
  rw [parsed]
  cases expression limit eof .lowest limit.toNat (first :: rest) with
  | error rejection =>
    obtain ⟨diagnostic, ahead, left⟩ := rejection
    simp only [Attempt.bare, Rejection.bare]
    rw [dropWhile_kind_bare (fun kind => decide (kind = .semicolon))]
    rfl
  | ok found =>
    obtain ⟨e, left⟩ := found
    simp only [Attempt.bare]
    rw [dropWhile_kind_bare (fun kind => decide (kind = .semicolon)), List.length_map]
    simp [bareResult, Item.bare, Outcome.bare, Statement.bare, merge_placeholder]

theorem statement_bare (first : Lexeme) (rest : List Lexeme) :
    statement limit eof.bare first.bare (rest.map Lexeme.bare) =
      bareResult (statement limit eof first rest) := by
  unfold statement
  rw [Lexeme.kind_bare]
  split
  · exact bindingAfter_bare first rest
  · exact skipped_bare first rest fun span => rfl
  · exact expressionStatement_bare first rest

/-! ## Programs -/

theorem items_bare (ls : List Lexeme) :
    items limit eof.bare (ls.map Lexeme.bare) = (items limit eof ls).map Item.bare := by
  fun_induction items limit eof ls with
  | case1 => rw [List.map_nil, items, List.map_nil]
  | case2 first rest result ih =>
    rw [List.map_cons, items_cons, statement_bare, List.map_cons]
    exact congrArg _ ih

theorem statements_bare (items : List Item) :
    (programOf (items.map Item.bare)).statements =
    (programOf items).statements.map Statement.bare := by
  simp only [programOf]
  rw [List.filterMap_map, List.map_filterMap]
  congr 1
  funext item
  rcases item with ⟨_ | _, _⟩ <;> rfl

theorem diagnostics_bare (items : List Item) :
    diagnosticsOf (items.map Item.bare) = (diagnosticsOf items).map Diagnostic.bare := by
  unfold diagnosticsOf
  rw [List.filterMap_map, List.map_filterMap]
  congr 1
  funext item
  rcases item with ⟨_ | _, _⟩ <;> rfl

theorem map_bare_eq_of_tokens {ls ls' : List Lexeme} (h : ls.map (·.token) = ls'.map (·.token)) :
    ls.map Lexeme.bare = ls'.map Lexeme.bare := by
  have bare : Lexeme.bare = (fun t => (⟨t, .placeholder⟩ : Lexeme)) ∘ (·.token) := rfl
  rw [bare, ← List.map_map, ← List.map_map, h]

theorem items_bare_eq {eof' : Lexeme} {ls ls' : List Lexeme}
    (same : ls.map (·.token) = ls'.map (·.token)) (ending : eof.token = eof'.token) :
    (items limit eof ls).map Item.bare = (items limit eof' ls').map Item.bare := by
  have ends : eof.bare = eof'.bare := by rw [Lexeme.bare, Lexeme.bare, ending]
  rw [← items_bare, ← items_bare, map_bare_eq_of_tokens same, ends]

end Parser

end Frontend
