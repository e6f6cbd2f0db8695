import Mathlib.Data.List.TakeWhile
import Frontend.Proofs.Parser.Bare
import Frontend.Proofs.Token.Joined

/-!
# Statements do not reach past a semicolon

Whatever is wrong with a statement, the parser is done with it at the first semicolon. So as long as
there is a semicolon ahead, lexemes put after it are left over as they are (`expression_append`,
`statement_append`), and a program that ends with a semicolon is parsed in the same way whatever is
put after it (`items_append`).
-/

set_option autoImplicit false

namespace Frontend

namespace Parser

variable {limit : UInt64} {eof eof' : Lexeme}

/-- There is a semicolon among the lexemes. -/
def Bounded (ls : List Lexeme) : Prop := ∃ l ∈ ls, l.kind = .semicolon

theorem Bounded.of_append {block rest : List Lexeme} (h : Bounded (block ++ rest))
    (none : ∀ l ∈ block, l.kind ≠ .semicolon) : Bounded rest := by
  obtain ⟨l, hl, kind⟩ := h
  rcases List.mem_append.mp hl with hl | hl
  · exact absurd kind (none l hl)
  · exact ⟨l, hl, kind⟩

theorem Bounded.of_cons {l : Lexeme} {rest : List Lexeme} (h : Bounded (l :: rest))
    (other : l.kind ≠ .semicolon) : Bounded rest := by
  have joined : Bounded ([l] ++ rest) := h
  exact joined.of_append (by simpa using other)

theorem Bounded.exists_cons {ls : List Lexeme} (h : Bounded ls) : ∃ l rest, ls = l :: rest := by
  obtain ⟨l, hl, -⟩ := h
  exact List.exists_cons_of_ne_nil (List.ne_nil_of_mem hl)

/-! ## Skipping -/

theorem dropWhile_append_of_bounded {ls : List Lexeme} (h : Bounded ls) (more : List Lexeme) :
    (ls ++ more).dropWhile (·.kind ≠ .semicolon) = ls.dropWhile (·.kind ≠ .semicolon) ++ more ∧
      ls.dropWhile (·.kind ≠ .semicolon) ≠ [] := by
  have found : ls.dropWhile (·.kind ≠ .semicolon) ≠ [] := by
    obtain ⟨l, hl, kind⟩ := h
    intro none
    have all := List.dropWhile_eq_nil_iff.mp none l hl
    simp [kind] at all
  refine ⟨?_, found⟩
  rw [List.dropWhile_append, if_neg (by simpa using found)]

theorem pastSemicolon_append_of_bounded {ls : List Lexeme} (h : Bounded ls) (more : List Lexeme) :
    pastSemicolon (ls ++ more) = pastSemicolon ls ++ more := by
  obtain ⟨dropped, found⟩ := dropWhile_append_of_bounded h more
  unfold pastSemicolon
  rw [dropped, List.tail_append_of_ne_nil found]

theorem closing_append_of_bounded {ls : List Lexeme} (h : Bounded ls) (more : List Lexeme) :
    closing eof (ls ++ more) = closing eof' ls := by
  obtain ⟨dropped, found⟩ := dropWhile_append_of_bounded h more
  obtain ⟨l, rest, hdrop⟩ := List.exists_cons_of_ne_nil found
  unfold closing
  rw [dropped, hdrop]
  rfl

/-! ## Expressions -/

def Rejection.extend (more : List Lexeme) (r : Rejection) : Rejection :=
  ⟨r.diagnostic, r.ahead + more.length, r.rest ++ more⟩

/-- What comes of an attempt, with more lexemes left over. -/
def Attempt.extend (more : List Lexeme) : Attempt Expr → Attempt Expr
  | .ok (e, rest) => .ok (e, rest ++ more)
  | .error rejection => .error (rejection.extend more)

theorem outOfRoom_append {ls : List Lexeme} (h : Bounded ls) (more : List Lexeme) (span : Span)
    (ahead : Nat) : outOfRoom limit span (ahead + more.length) (ls ++ more) =
      (outOfRoom limit span ahead ls).extend more := by
  unfold outOfRoom
  rw [pastSemicolon_append_of_bounded h]
  rfl

theorem operand_append {nested nested' : List Lexeme → Attempt Expr} {more : List Lexeme}
    (hn : ∀ ls, Bounded ls → nested (ls ++ more) = Attempt.extend more (nested' ls))
    {ls : List Lexeme} (h : Bounded ls) :
    operand eof nested (ls ++ more) = Attempt.extend more (operand eof' nested' ls) := by
  obtain ⟨l, rest, rfl⟩ := h.exists_cons
  cases unary : l.kind.isUnary with
  | true =>
    have inner : Bounded rest := by
      apply h.of_cons
      intro kind
      rw [kind] at unary
      cases unary
    rw [List.cons_append, operand_unary unary, operand_unary unary, hn rest inner]
    cases nested' rest <;> rfl
  | false =>
    simp only [List.cons_append, operand]
    cases kind : l.kind
    case ident => rfl
    case int =>
      cases Text.int64? l.literal.toList with
      | none => simp [Attempt.extend, Rejection.extend]
      | some value => rfl
    case bang | minus =>
      rw [kind] at unary
      cases unary
    all_goals simp [Attempt.extend, Rejection.extend]

theorem not_semicolon_of_lt {least : Precedence} {operator : Lexeme}
    (h : least < operator.kind.precedence) : operator.kind ≠ .semicolon := by
  intro kind
  rw [kind] at h
  exact Nat.not_lt_zero _ h

theorem expression_chain_append (more : List Lexeme) (room : Nat) :
    (∀ least ls, Bounded ls → expression limit eof least room (ls ++ more) =
      Attempt.extend more (expression limit eof' least room ls)) ∧
    (∀ least left ls, Bounded ls → chain limit eof least room left (ls ++ more) =
      Attempt.extend more (chain limit eof' least room left ls)) := by
  -- a chain that stops at the first lexeme leaves all of them over
  have stopped : ∀ room least left ls, Bounded ls → Stops least ls →
      chain limit eof least room left (ls ++ more) =
        Attempt.extend more (chain limit eof' least room left ls) := by
    intro room least left ls bounded stops
    obtain ⟨l, rest, rfl⟩ := bounded.exists_cons
    have stops' : Stops least (l :: rest ++ more) := fun l hl => stops l hl
    rw [chain_of_stops stops, chain_of_stops stops']
    rfl
  induction room with
  | zero =>
    refine ⟨fun least ls bounded => ?_, fun least left ls bounded => ?_⟩
    · obtain ⟨l, rest, rfl⟩ := bounded.exists_cons
      have ahead : (l :: rest ++ more).length - 1 =
          ((l :: rest).length - 1) + more.length := by simp
      rw [expression, expression, ahead, outOfRoom_append bounded]
      rfl
    · rcases stops_or_cons least ls with stops | ⟨operator, rest, rfl, hleast⟩
      · exact stopped 0 least left ls bounded stops
      · have ahead : (rest ++ more).length + 1 = rest.length + 1 + more.length := by
          rw [List.length_append]
          omega
        rw [List.cons_append, chain, chain, if_pos hleast, if_pos hleast, ahead, ← List.cons_append,
          outOfRoom_append bounded]
        rfl
  | succ room ih =>
    obtain ⟨ihe, ihc⟩ := ih
    refine ⟨fun least ls bounded => ?_, fun least left ls bounded => ?_⟩
    · rw [expression, expression, operand_append (fun ls h => ihe .unary ls h) bounded]
      cases found : operand eof' (fun rest => expression limit eof' .unary room rest) ls with
      | error rejection => rfl
      | ok result =>
        obtain ⟨left, rest⟩ := result
        obtain ⟨block, rfl, reads, -⟩ := operand_sound (fun _ _ _ => expression_sound) found
        exact ihc least left rest (bounded.of_append reads.not_semicolon)
    · rcases stops_or_cons least ls with stops | ⟨operator, rest, rfl, hleast⟩
      · exact stopped (room + 1) least left ls bounded stops
      · have inner := bounded.of_cons (not_semicolon_of_lt hleast)
        rw [List.cons_append, chain_cons hleast, chain_cons hleast, ihe _ rest inner]
        cases found : expression limit eof' operator.kind.precedence room rest with
        | error rejection => rfl
        | ok result =>
          obtain ⟨right, rest⟩ := result
          obtain ⟨block, rfl, parsed⟩ := expression_sound found
          exact ihc least _ rest (inner.of_append parsed.reads.not_semicolon)

theorem expression_append {ls : List Lexeme} (h : Bounded ls) (more : List Lexeme)
    (least : Precedence) (room : Nat) : expression limit eof least room (ls ++ more) =
      Attempt.extend more (expression limit eof' least room ls) :=
  (expression_chain_append more room).1 least ls h

/-! ## Statements -/

def Item.later (n : Nat) (item : Item) : Item := ⟨item.outcome, item.ahead + n⟩

/-- What a statement gives, with more lexemes left over. -/
def extendResult (more : List Lexeme) (result : Item × List Lexeme) : Item × List Lexeme :=
  (result.1.later more.length, result.2 ++ more)

theorem broken_append {ls : List Lexeme} (h : Bounded ls) (more : List Lexeme) (expected : Kind) :
    broken eof expected (ls ++ more) = extendResult more (broken eof' expected ls) := by
  unfold broken
  rw [pastSemicolon_append_of_bounded h, List.length_append]
  obtain ⟨l, rest, rfl⟩ := h.exists_cons
  rfl

theorem skipped_append {ls : List Lexeme} (h : Bounded ls) (more : List Lexeme)
    (build : Span → Statement) (first : Lexeme) :
    skipped build first eof (ls ++ more) = extendResult more (skipped build first eof' ls) := by
  have ended : closing eof (ls ++ more) = closing eof' ls := closing_append_of_bounded h more
  simp only [skipped, pastSemicolon_append_of_bounded h, List.length_append, ended]
  rfl

theorem bindingAfter_append {ls : List Lexeme} (h : Bounded ls) (more : List Lexeme)
    (first : Lexeme) :
    bindingAfter first eof (ls ++ more) = extendResult more (bindingAfter first eof' ls) := by
  obtain ⟨name, rest, rfl⟩ := h.exists_cons
  by_cases named : name.kind = .ident
  · have inner : Bounded rest := h.of_cons (by rw [named]; decide)
    obtain ⟨sign, rest, rfl⟩ := inner.exists_cons
    rw [List.cons_append, List.cons_append]
    by_cases signed : sign.kind = .assign
    · rw [bindingAfter_signed named signed, bindingAfter_signed named signed]
      exact skipped_append (inner.of_cons (by rw [signed]; decide)) more _ first
    · rw [bindingAfter_unsigned named signed, bindingAfter_unsigned named signed]
      exact broken_append inner more .assign
  · rw [List.cons_append, bindingAfter_unnamed named, bindingAfter_unnamed named]
    exact broken_append h more .ident

/-- The first lexeme, if there is one, is no semicolon. -/
def Fresh (ls : List Lexeme) : Prop := ∀ l, ls.head? = some l → l.kind ≠ .semicolon

theorem dropWhile_semicolon_append {more : List Lexeme} (fresh : Fresh more) (ls : List Lexeme) :
    (ls ++ more).dropWhile (·.kind = .semicolon) = ls.dropWhile (·.kind = .semicolon) ++ more := by
  have kept : more.dropWhile (·.kind = .semicolon) = more := by
    cases more with
    | nil => rfl
    | cons l more => rw [List.dropWhile_cons_of_neg (by simpa using fresh l rfl)]
  rw [List.dropWhile_append]
  split
  · rename_i empty
    rw [kept, List.isEmpty_iff.mp empty, List.nil_append]
  · rfl

theorem expressionStatement_append {first : Lexeme} {rest more : List Lexeme}
    (h : Bounded (first :: rest)) (fresh : Fresh more) :
    expressionStatement limit first eof (rest ++ more) =
      extendResult more (expressionStatement limit first eof' rest) := by
  have parsed : expression limit eof .lowest limit.toNat (first :: (rest ++ more)) =
      Attempt.extend more (expression limit eof' .lowest limit.toNat (first :: rest)) :=
    expression_append h more .lowest limit.toNat
  unfold expressionStatement
  rw [parsed]
  cases expression limit eof' .lowest limit.toNat (first :: rest) with
  | error rejection =>
    simp only [Attempt.extend, Rejection.extend, dropWhile_semicolon_append fresh]
    rfl
  | ok found =>
    simp only [Attempt.extend, dropWhile_semicolon_append fresh, List.length_append]
    rfl

theorem statement_append {first : Lexeme} {rest more : List Lexeme} (h : Bounded (first :: rest))
    (fresh : Fresh more) : statement limit eof first (rest ++ more) =
      extendResult more (statement limit eof' first rest) := by
  unfold statement
  split
  · rename_i word
    exact bindingAfter_append (h.of_cons (by rw [word]; decide)) more first
  · rename_i word
    exact skipped_append (h.of_cons (by rw [word]; decide)) more _ first
  · exact expressionStatement_append h fresh

/-! ## Programs -/

theorem items_append (eof eof' : Lexeme) {ls more : List Lexeme} (closed : Sealed ls)
    (fresh : Fresh more) :
    items limit eof (ls ++ more) =
      (items limit eof' ls).map (Item.later more.length) ++ items limit eof more := by
  fun_induction items limit eof' ls with
  | case1 => rfl
  | case2 first rest result ih =>
    have suffix : result.2 <:+ first :: rest :=
      (statement_suffix limit eof' first rest).trans (List.suffix_cons first rest)
    rw [List.cons_append, items_cons, statement_append closed.exists_semicolon fresh, List.map_cons,
      List.cons_append]
    exact congrArg _ (ih (closed.of_suffix suffix))

theorem statements_append {ls more : List Lexeme} (closed : Sealed ls) (fresh : Fresh more) :
    (programOf (items limit eof (ls ++ more))).statements =
      (programOf (items limit eof' ls)).statements ++
        (programOf (items limit eof more)).statements := by
  simp only [programOf, items_append eof eof' closed fresh, List.filterMap_append,
    List.filterMap_map]
  rfl

theorem diagnostics_append {ls more : List Lexeme} (closed : Sealed ls) (fresh : Fresh more) :
    diagnosticsOf (items limit eof (ls ++ more)) =
      diagnosticsOf (items limit eof' ls) ++ diagnosticsOf (items limit eof more) := by
  simp only [diagnosticsOf, items_append eof eof' closed fresh,
    List.filterMap_append, List.filterMap_map]
  rfl

end Parser

/-! ## Texts -/

/-- A text that is white space only, or whose last token is a semicolon. -/
def EndsStatement (text : List Char) : Prop :=
  Blank text ∨ ∃ before last eof, tokenize text = .ok (before ++ [last, eof]) ∧
    last.kind = .semicolon

/-- A text whose first token is no semicolon. The end of a text counts as a token here. -/
def StartsStatement (text : List Char) : Prop :=
  ∃ first rest, tokenize text = .ok (first :: rest) ∧ first.kind ≠ .semicolon

theorem EndsStatement.sealed {text : List Char} {ls : List Lexeme} {eof : Lexeme}
    (h : EndsStatement text) (laid : Laid .start text ls eof) : Sealed ls := by
  rcases h with blank | ⟨before, last, eof', tokenized, kind⟩
  · rw [← lexemesFrom_eq_ok_iff, lexemesFrom_blank blank] at laid
    obtain ⟨place, -, laid⟩ := exists_of_bind_eq_ok laid
    cases laid
    intro l hl
    cases hl
  · have same := tokenize_eq_ok_iff.mpr ⟨ls, eof, laid, rfl⟩
    rw [tokenized, Except.ok.injEq] at same
    have hls : before ++ [last] = ls := by
      have regroup : (before ++ [last]) ++ [eof'] = ls ++ [eof] := by
        rw [← same, List.append_assoc]
        rfl
      exact (List.append_inj' regroup rfl).1
    intro l hl
    rw [← hls, List.getLast?_concat] at hl
    cases hl
    exact kind

theorem StartsStatement.fresh {text : List Char} {p : Position} {ls : List Lexeme} {eof : Lexeme}
    (h : StartsStatement text) (laid : Laid p text ls eof) : Parser.Fresh ls := by
  obtain ⟨first, rest, tokenized, kind⟩ := h
  obtain ⟨ls', eof', laid', hls'⟩ := tokenize_eq_ok_iff.mp tokenized
  have tokens := laid.tokens_eq laid'
  intro l hl
  obtain ⟨tail, rfl⟩ := List.head?_eq_some_iff.mp hl
  obtain ⟨l', tail', rfl, htoken, -⟩ := List.map_eq_cons_iff.mp tokens.symm
  cases hls'
  change first.token = l.token at htoken
  rw [Lexeme.kind, ← htoken]
  exact kind

/-- A text that ends its last statement is parsed the same, whatever is put after it, and what is
put after it is parsed as it is by itself, up to spans. There is a result if the two texts together
have positions. -/
theorem parse_append (limit : UInt64) {text more : List Char} (ends : EndsStatement text)
    (starts : StartsStatement more) :
    (∀ place, Position.start.advanceAll (text ++ more) = .ok place →
      ∃ p ds q es statements diagnostics,
      parse limit text = .ok (p, ds) ∧ parse limit more = .ok (q, es) ∧
      parse limit (text ++ more) = .ok (⟨p.statements ++ statements⟩, ds ++ diagnostics) ∧
      statements.map Statement.bare = q.statements.map Statement.bare ∧
      diagnostics.map Diagnostic.bare = es.map Diagnostic.bare) ∧
    (∀ fault, Position.start.advanceAll (text ++ more) = .error fault →
      parse limit (text ++ more) = .error fault) := by
  refine ⟨fun place there => ?_, fun fault missing => parse_eq_error missing⟩
  rw [Position.advanceAll_append] at there
  obtain ⟨middle, first, second⟩ := exists_of_bind_eq_ok there
  obtain ⟨ls, laid⟩ := exists_laid first
  obtain ⟨ls', laid'⟩ := exists_laid second
  obtain ⟨head, tail, tokenized, -⟩ := id starts
  obtain ⟨alone, eof, laidAlone, -⟩ := tokenize_eq_ok_iff.mp tokenized
  have closed := ends.sealed laid
  have fresh := starts.fresh laid'
  -- the second text by itself has the same tokens, at other places
  have same : (Parser.items limit (.eofAt place) ls').map Parser.Item.bare =
      (Parser.items limit eof alone).map Parser.Item.bare := by
    apply Parser.items_bare_eq (laid'.tokens_eq laidAlone)
    obtain ⟨place', -, rfl⟩ := laidAlone.advanceAll
    rfl
  refine ⟨_, _, _, _, (Parser.programOf (Parser.items limit (.eofAt place) ls')).statements,
    Parser.diagnosticsOf (Parser.items limit (.eofAt place) ls'),
    parse_eq_ok_iff.mpr ⟨ls, _, laid, rfl, rfl⟩,
    parse_eq_ok_iff.mpr ⟨alone, eof, laidAlone, rfl, rfl⟩,
    parse_eq_ok_iff.mpr ⟨ls ++ ls', _, laid.append closed first laid', ?_, ?_⟩, ?_, ?_⟩
  · rw [← Parser.statements_append closed fresh]
  · rw [← Parser.diagnostics_append closed fresh]
  · rw [← Parser.statements_bare, ← Parser.statements_bare, same]
  · rw [← Parser.diagnostics_bare, ← Parser.diagnostics_bare, same]

theorem parse_append_broken :
    EndsStatement "1 );".toList ∧ StartsStatement "2 +; x".toList ∧
      ∃ p ds q es statements diagnostics, parse 256 "1 );".toList = .ok (p, ds) ∧
        parse 256 "2 +; x".toList = .ok (q, es) ∧
        parse 256 "1 );2 +; x".toList = .ok (⟨p.statements ++ statements⟩, ds ++ diagnostics) ∧
        statements.map Statement.bare = q.statements.map Statement.bare ∧
        diagnostics.map Diagnostic.bare = es.map Diagnostic.bare := by
  have ends : EndsStatement "1 );".toList :=
    .inr ⟨[⟨⟨.int, "1"⟩, ⟨⟨0, 1, 1⟩, ⟨1, 1, 2⟩⟩⟩, ⟨⟨.rparen, ")"⟩, ⟨⟨2, 1, 3⟩, ⟨3, 1, 4⟩⟩⟩],
      ⟨⟨.semicolon, ";"⟩, ⟨⟨3, 1, 4⟩, ⟨4, 1, 5⟩⟩⟩, .eofAt ⟨4, 1, 5⟩, by decide +kernel, rfl⟩
  have starts : StartsStatement "2 +; x".toList :=
    ⟨⟨⟨.int, "2"⟩, ⟨⟨0, 1, 1⟩, ⟨1, 1, 2⟩⟩⟩, [⟨⟨.plus, "+"⟩, ⟨⟨2, 1, 3⟩, ⟨3, 1, 4⟩⟩⟩,
      ⟨⟨.semicolon, ";"⟩, ⟨⟨3, 1, 4⟩, ⟨4, 1, 5⟩⟩⟩, ⟨⟨.ident, "x"⟩, ⟨⟨5, 1, 6⟩, ⟨6, 1, 7⟩⟩⟩,
      .eofAt ⟨6, 1, 7⟩], by decide +kernel, by decide⟩
  have there : Position.start.advanceAll ("1 );".toList ++ "2 +; x".toList) =
      .ok ⟨10, 1, 11⟩ := rfl
  exact ⟨ends, starts, (parse_append 256 ends starts).1 ⟨10, 1, 11⟩ there⟩

end Frontend
