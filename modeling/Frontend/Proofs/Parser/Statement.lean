import Frontend.Proofs.Parser.Expression

/-!
# What the statement parser accepts

`Accepts` lists the ways in which a statement is accepted, with the statement and the lexemes after
it, and `statement_eq_accepted_iff` says that there are no others.
-/

set_option autoImplicit false

namespace Frontend.Parser

variable {limit : UInt64} {eof : Lexeme}

/-! ## Skipping to a semicolon -/

/-- The lexemes start with a semicolon or are at their end. With them go the span of the semicolon
or of the end, and the lexemes after it. -/
inductive Terminated (eof : Lexeme) : List Lexeme → Span → List Lexeme → Prop
  | semicolon {l : Lexeme} {after : List Lexeme} (kind : l.kind = .semicolon) :
      Terminated eof (l :: after) l.span after
  | ended : Terminated eof [] eof.span []

/-- No lexeme is a semicolon. -/
def Skippable (body : List Lexeme) : Prop := ∀ l ∈ body, l.kind ≠ .semicolon

theorem exists_terminated (eof : Lexeme) (rest : List Lexeme) :
    ∃ body tail, rest = body ++ tail ∧ Skippable body ∧
      Terminated eof tail (closing eof rest) (pastSemicolon rest) := by
  refine ⟨rest.takeWhile (·.kind ≠ .semicolon), rest.dropWhile (·.kind ≠ .semicolon),
    List.takeWhile_append_dropWhile.symm, ?_, ?_⟩
  · intro l hl
    simpa using List.all_eq_true.mp List.all_takeWhile l hl
  · have found := List.head?_dropWhile_not (fun l : Lexeme => decide (l.kind ≠ .semicolon)) rest
    unfold closing pastSemicolon
    cases hdrop : rest.dropWhile (·.kind ≠ .semicolon) with
    | nil => exact .ended
    | cons l tail =>
      rw [hdrop] at found
      exact .semicolon (by simpa using found)

theorem closing_of_terminated {body tail after : List Lexeme} {span : Span} (skip : Skippable body)
    (h : Terminated eof tail span after) :
    closing eof (body ++ tail) = span ∧ pastSemicolon (body ++ tail) = after := by
  have dropped : (body ++ tail).dropWhile (·.kind ≠ .semicolon) = tail := by
    rw [List.dropWhile_append_of_pos (fun l hl => by simpa using skip l hl)]
    cases h with
    | semicolon kind => rw [List.dropWhile_cons_of_neg (by simpa using kind)]
    | ended => rfl
  unfold closing pastSemicolon
  rw [dropped]
  cases h with
  | semicolon kind => exact ⟨rfl, rfl⟩
  | ended => exact ⟨rfl, rfl⟩

/-! ## What follows `let` -/

section

variable {first name sign : Lexeme} {rest : List Lexeme}

theorem bindingAfter_unnamed (h : name.kind ≠ .ident) :
    bindingAfter first eof (name :: rest) = broken eof .ident (name :: rest) := if_neg h

theorem bindingAfter_ended (named : name.kind = .ident) :
    bindingAfter first eof [name] = broken eof .assign [] := if_pos named

theorem bindingAfter_unsigned (named : name.kind = .ident) (h : sign.kind ≠ .assign) :
    bindingAfter first eof (name :: sign :: rest) = broken eof .assign (sign :: rest) :=
  (if_pos named).trans (if_neg h)

theorem bindingAfter_signed (named : name.kind = .ident) (signed : sign.kind = .assign) :
    bindingAfter first eof (name :: sign :: rest) =
      skipped (.binding first.token (nameOf name) none) first eof rest :=
  (if_pos named).trans (if_pos signed)

end

/-! ## One statement -/

/-- How a statement is accepted: its lexemes with those after it, the statement, the lexemes after
it. -/
inductive Accepts (limit : UInt64) (eof : Lexeme) : List Lexeme → Statement → List Lexeme → Prop
  | binding {first name sign : Lexeme} {body tail after : List Lexeme} {span : Span}
      (word : first.kind = .letWord) (named : name.kind = .ident) (signed : sign.kind = .assign)
      (skip : Skippable body) (done : Terminated eof tail span after) :
      Accepts limit eof (first :: name :: sign :: (body ++ tail))
        (.binding first.token (nameOf name) none (first.span.merge span)) after
  | giving {first : Lexeme} {body tail after : List Lexeme} {span : Span}
      (word : first.kind = .returnWord) (skip : Skippable body)
      (done : Terminated eof tail span after) :
      Accepts limit eof (first :: (body ++ tail))
        (.giving first.token none (first.span.merge span)) after
  | expression {first : Lexeme} {block run after : List Lexeme} {e : Expr}
      (parsed : Parsed .lowest e (first :: block) (run ++ after)) (fits : e.cost ≤ limit.toNat)
      (semicolons : ∀ l ∈ run, l.kind = .semicolon)
      (all : ∀ l, after.head? = some l → l.kind ≠ .semicolon) :
      Accepts limit eof (first :: (block ++ (run ++ after)))
        (.expression first.token e (first.span.merge e.span)) after

theorem accepts_binding_of_bindingAfter {first : Lexeme} {rest after : List Lexeme} {s : Statement}
    {n : Nat} (word : first.kind = .letWord)
    (h : bindingAfter first eof rest = (⟨.accepted s, n⟩, after)) :
    Accepts limit eof (first :: rest) s after ∧ n = after.length := by
  unfold bindingAfter at h
  split at h
  · cases h
  · split at h
    · rename_i name rest named
      split at h
      · cases h
      · rename_i sign rest
        split at h
        · rename_i signed
          cases h
          obtain ⟨body, tail, hrest, skip, done⟩ := exists_terminated eof rest
          have accepted : Accepts limit eof (first :: name :: sign :: (body ++ tail)) _ _ :=
            .binding word named signed skip done
          rw [← hrest] at accepted
          exact ⟨accepted, rfl⟩
        · cases h
    · cases h

theorem accepts_giving_of_skipped {first : Lexeme} {rest after : List Lexeme} {s : Statement}
    {n : Nat} (word : first.kind = .returnWord)
    (h : skipped (.giving first.token none) first eof rest = (⟨.accepted s, n⟩, after)) :
    Accepts limit eof (first :: rest) s after ∧ n = after.length := by
  cases h
  obtain ⟨body, tail, hrest, skip, done⟩ := exists_terminated eof rest
  have accepted : Accepts limit eof (first :: (body ++ tail)) _ _ := .giving word skip done
  rw [← hrest] at accepted
  exact ⟨accepted, rfl⟩

theorem accepts_expression_of_expressionStatement {first : Lexeme} {rest after : List Lexeme}
    {s : Statement} {n : Nat}
    (h : expressionStatement limit first eof rest = (⟨.accepted s, n⟩, after)) :
    Accepts limit eof (first :: rest) s after ∧ n = after.length := by
  unfold expressionStatement at h
  split at h
  · rename_i e left heq
    cases h
    obtain ⟨block, hblock, parsed, fits⟩ := expression_eq_ok_iff.mp heq
    obtain ⟨head, block, rfl⟩ := List.exists_cons_of_ne_nil parsed.reads.ne_nil
    obtain ⟨rfl, rfl⟩ := List.cons.inj hblock
    -- the semicolons that are dropped are the longest run of them
    have run : left = left.takeWhile (·.kind = .semicolon) ++
        left.dropWhile (·.kind = .semicolon) :=
      List.takeWhile_append_dropWhile.symm
    have semicolons : ∀ l ∈ left.takeWhile (·.kind = .semicolon), l.kind = .semicolon := by
      intro l hl
      simpa using List.all_eq_true.mp List.all_takeWhile l hl
    have all : ∀ l, (left.dropWhile (·.kind = .semicolon)).head? = some l →
        l.kind ≠ .semicolon := by
      intro l hl
      have := List.head?_dropWhile_not (fun l : Lexeme => decide (l.kind = .semicolon)) left
      rw [hl] at this
      simpa using this
    rw [run] at parsed
    have accepted : Accepts limit eof _ _ _ := .expression parsed fits semicolons all
    rw [← run] at accepted
    exact ⟨accepted, rfl⟩
  · cases h

theorem statement_of_reads {e : Expr} {first : Lexeme} {block : List Lexeme}
    (reads : Reads e (first :: block)) (rest : List Lexeme) :
    statement limit eof first rest = expressionStatement limit first eof rest := by
  have start := reads.head_kind first rfl
  unfold statement
  split
  · rename_i word
    simp [word, Kind.isUnary] at start
  · rename_i word
    simp [word, Kind.isUnary] at start
  · rfl

theorem statement_of_accepts {ls after : List Lexeme} {s : Statement}
    (h : Accepts limit eof ls s after) :
    ∃ first rest, ls = first :: rest ∧
      statement limit eof first rest = (⟨.accepted s, after.length⟩, after) := by
  cases h with
  | binding word named signed skip done =>
    obtain ⟨closes, past⟩ := closing_of_terminated skip done
    refine ⟨_, _, rfl, ?_⟩
    unfold statement bindingAfter
    simp only [word, named, signed, if_true, skipped, closes, past]
  | giving word skip done =>
    obtain ⟨closes, past⟩ := closing_of_terminated skip done
    refine ⟨_, _, rfl, ?_⟩
    unfold statement
    simp only [word, skipped, closes, past]
  | @expression first block run after e parsed fits semicolons all =>
    have read : expression limit eof .lowest limit.toNat (first :: (block ++ (run ++ after))) =
        .ok (e, run ++ after) := expression_complete parsed fits
    have dropped : (run ++ after).dropWhile (·.kind = .semicolon) = after := by
      rw [List.dropWhile_append_of_pos (fun l hl => by simpa using semicolons l hl)]
      cases after with
      | nil => rfl
      | cons l after => rw [List.dropWhile_cons_of_neg (by simpa using all l rfl)]
    refine ⟨first, _, rfl, ?_⟩
    rw [statement_of_reads parsed.reads, expressionStatement]
    simp only [read, dropped]

theorem statement_eq_accepted_iff {first : Lexeme} {rest after : List Lexeme} {s : Statement}
    {n : Nat} :
    statement limit eof first rest = (⟨.accepted s, n⟩, after) ↔
      Accepts limit eof (first :: rest) s after ∧ n = after.length := by
  constructor
  · intro h
    unfold statement at h
    split at h
    · exact accepts_binding_of_bindingAfter ‹_› h
    · exact accepts_giving_of_skipped ‹_› h
    · exact accepts_expression_of_expressionStatement h
  · rintro ⟨accepts, rfl⟩
    obtain ⟨first', rest', heq, h⟩ := statement_of_accepts accepts
    cases heq
    exact h

end Frontend.Parser
