import Frontend.Proofs.Parser.Program
import Frontend.Proofs.Tree.Placement
import Mathlib.Data.List.Basic

/-!
# Where statements stand

A binding or a return stands on all lexemes up to its semicolon, and the end of the text is its last
lexeme if there is no semicolon. An expression statement stands on the lexemes of its expression
alone. The statements of a program stand on the lexemes of the text one after the other
(`standInRow_items`), with semicolons and rejected statements between them, so their spans follow
each other and the span of the program goes from the first to the last.
-/

set_option autoImplicit false

namespace Frontend

/-- A statement stands on lexemes, given the lexeme at the end of the text. -/
inductive Statement.StandsOn (eof : Lexeme) : Statement → List Lexeme → Prop
  | binding {name : Identifier} {span : Span} {first second sign closer : Lexeme}
      {body : List Lexeme} (word : first.kind = .letWord) (named : second.kind = .ident)
      (same : name.token = second.token) (signed : sign.kind = .assign)
      (skip : ∀ l ∈ body, l.kind ≠ .semicolon) (closes : closer.kind = .semicolon ∨ closer = eof)
      (covers : span.Covers (first :: second :: sign :: (body ++ [closer])))
      (coversName : name.span.Covers [second]) (inside : name.span.Inside span)
      (after : first.span.Before name.span) :
      StandsOn eof (.binding first.token name none span)
        (first :: second :: sign :: (body ++ [closer]))
  | giving {span : Span} {first closer : Lexeme} {body : List Lexeme}
      (word : first.kind = .returnWord) (skip : ∀ l ∈ body, l.kind ≠ .semicolon)
      (closes : closer.kind = .semicolon ∨ closer = eof)
      (covers : span.Covers (first :: (body ++ [closer]))) :
      StandsOn eof (.giving first.token none span) (first :: (body ++ [closer]))
  | expression {e : Expr} {span : Span} {first : Lexeme} {block : List Lexeme}
      (inner : e.StandsOn (first :: block)) (covers : span.Covers (first :: block))
      (inside : e.span.Inside span) :
      StandsOn eof (.expression first.token e span) (first :: block)

/-- Statements stand on lexemes one after the other, with others before and between them. -/
inductive StandInRow (eof : Lexeme) : List Statement → List Lexeme → Prop
  | nil (ls : List Lexeme) : StandInRow eof [] ls
  | cons {s : Statement} {others : List Statement} {block rest : List Lexeme} (gap : List Lexeme)
      (first : s.StandsOn eof block) (row : StandInRow eof others rest) :
      StandInRow eof (s :: others) (gap ++ (block ++ rest))

theorem Statement.StandsOn.covers {eof : Lexeme} {s : Statement} {ls : List Lexeme}
    (h : s.StandsOn eof ls) : s.span.Covers ls := by
  cases h <;> assumption

theorem StandInRow.prepend {eof : Lexeme} {ss : List Statement} {ls : List Lexeme}
    (h : StandInRow eof ss ls) (gap : List Lexeme) : StandInRow eof ss (gap ++ ls) := by
  cases h with
  | nil => exact .nil _
  | cons between first row =>
    rw [← List.append_assoc]
    exact .cons (gap ++ between) first row

theorem StandInRow.exists_sublist {eof : Lexeme} {ss : List Statement} {ls : List Lexeme}
    (h : StandInRow eof ss ls) : ∀ s ∈ ss, ∃ block, block.Sublist ls ∧ s.StandsOn eof block := by
  induction h with
  | nil => simp
  | @cons s others block rest gap first row ih =>
    intro t ht
    rcases List.mem_cons.mp ht with rfl | ht
    · exact ⟨block, (List.sublist_append_left _ _).trans (List.sublist_append_right _ _), first⟩
    · obtain ⟨block', sub, stands⟩ := ih t ht
      exact ⟨block', (sub.trans (List.sublist_append_right _ _)).trans
        (List.sublist_append_right _ _), stands⟩

theorem StandInRow.precedes {eof : Lexeme} {ss : List Statement} {ls : List Lexeme}
    (h : StandInRow eof ss ls) (ordered : InOrder ls) :
    ss.Pairwise fun s t => s.span.stop.Precedes t.span.start := by
  induction h with
  | nil => exact .nil
  | @cons s others block rest gap first row ih =>
    have here := ordered.sublist (List.sublist_append_right gap _)
    refine .cons (fun t ht => ?_) (ih (here.sublist (List.sublist_append_right block _)))
    obtain ⟨block', sub, stands⟩ := row.exists_sublist t ht
    exact first.covers.precedes stands.covers (here.sublist ((List.Sublist.refl block).append sub))

theorem StandInRow.forward {eof : Lexeme} {ss : List Statement} {ls : List Lexeme}
    (h : StandInRow eof ss ls) (ordered : InOrder ls) :
    ∀ s ∈ ss, s.span.start.Precedes s.span.stop := by
  intro s hs
  obtain ⟨block, sub, stands⟩ := h.exists_sublist s hs
  exact stands.covers.forward (ordered.sublist sub)

/-! ## Programs -/

/-- In statements that follow each other, the span from the first to the last holds them all. -/
theorem Program.span_of_precedes {p : Program} {first last : Statement}
    (ordered : p.statements.Pairwise fun s t => s.span.stop.Precedes t.span.start)
    (forward : ∀ s ∈ p.statements, s.span.start.Precedes s.span.stop)
    (head : p.statements.head? = some first) (final : p.statements.getLast? = some last) :
    p.span = ⟨first.span.start, last.span.stop⟩ ∧ ∀ s ∈ p.statements, s.span.Inside p.span := by
  have starts : ∀ s ∈ p.statements, first.span.start.Precedes s.span.start := by
    intro s hs
    obtain ⟨rest, hrest⟩ := List.head?_eq_some_iff.mp head
    rw [hrest] at ordered forward hs
    rcases List.mem_cons.mp hs with rfl | later
    · exact .refl _
    · exact (forward first (by simp)).trans ((List.pairwise_cons.mp ordered).1 s later)
  have stops : ∀ s ∈ p.statements, s.span.stop.Precedes last.span.stop := by
    intro s hs
    obtain ⟨init, hinit⟩ := List.getLast?_eq_some_iff.mp final
    rw [hinit] at ordered forward hs
    rcases List.mem_append.mp hs with earlier | only
    · exact ((List.pairwise_append.mp ordered).2.2 s earlier last (by simp)).trans
        (forward last (by simp))
    · rw [List.mem_singleton.mp only]
      exact .refl _
  have merged : p.span = ⟨first.span.start, last.span.stop⟩ := by
    rw [Program.span, head, final]
    exact Span.merge_of_precedes (starts last (List.mem_of_getLast? final))
      (stops first (List.mem_of_head? head))
  refine ⟨merged, fun s hs => ?_⟩
  rw [merged]
  exact ⟨(starts s hs).le, (stops s hs).le⟩

namespace Parser

variable {limit : UInt64} {eof : Lexeme}

theorem Terminated.exists_closer {tail after : List Lexeme} {span : Span}
    (h : Terminated eof tail span after) : ∃ closer rest, tail ++ [eof] = closer :: rest ∧
      span = closer.span ∧ (closer.kind = .semicolon ∨ closer = eof) ∧
      (after = [] ∨ after ++ [eof] <:+ rest) := by
  cases h with
  | @semicolon l after kind => exact ⟨l, after ++ [eof], rfl, rfl, .inl kind, .inr List.suffix_rfl⟩
  | ended => exact ⟨eof, [], rfl, rfl, .inr rfl, .inl rfl⟩

theorem Accepts.standsOn {ls after : List Lexeme} {s : Statement} (h : Accepts limit eof ls s after)
    (ordered : InOrder (ls ++ [eof])) : ∃ block rest, ls ++ [eof] = block ++ rest ∧
      s.StandsOn eof block ∧ (after = [] ∨ after ++ [eof] <:+ rest) := by
  cases h with
  | @binding first name sign body tail after span word named signed skip done =>
    obtain ⟨closer, rest, htail, rfl, closes, suffix⟩ := done.exists_closer
    have split : first :: name :: sign :: (body ++ tail) ++ [eof] =
        ([first] ++ ((name :: sign :: body) ++ [closer])) ++ rest := by simp [htail]
    refine ⟨_, rest, split, ?_, suffix⟩
    rw [split] at ordered
    have here := ordered.sublist (List.sublist_append_left _ rest)
    have covers := (Span.covers_singleton first).merge (Span.covers_singleton closer) here
    have coversName := Span.covers_singleton name
    have apart : first.span.stop.Precedes name.span.start :=
      (List.pairwise_cons.mp here.ordered).1 name (by simp)
    exact .binding word named rfl signed skip closes covers coversName
      (coversName.inside covers here (by simp)) apart.le
  | @giving first body tail after span word skip done =>
    obtain ⟨closer, rest, htail, rfl, closes, suffix⟩ := done.exists_closer
    have split : first :: (body ++ tail) ++ [eof] = ([first] ++ (body ++ [closer])) ++ rest := by
      simp [htail]
    refine ⟨_, rest, split, ?_, suffix⟩
    rw [split] at ordered
    have here := ordered.sublist (List.sublist_append_left _ rest)
    exact .giving word skip closes
      ((Span.covers_singleton first).merge (Span.covers_singleton closer) here)
  | @expression first block run after e parsed fits semicolons all =>
    have split : first :: (block ++ (run ++ after)) ++ [eof] =
        (first :: block) ++ (run ++ (after ++ [eof])) := by simp
    refine ⟨first :: block, _, split, ?_, .inr (List.suffix_append run _)⟩
    rw [split] at ordered
    have here := ordered.sublist (List.sublist_append_left _ _)
    have inner := parsed.reads.standsOn here
    rw [inner.covers.merge_first here]
    exact .expression inner inner.covers ⟨UInt64.le_refl _, UInt64.le_refl _⟩

/-- The statements of the lexemes of a text stand on them one after the other. -/
theorem standInRow_items {ls : List Lexeme} (ordered : InOrder (ls ++ [eof])) :
    StandInRow eof (programOf (items limit eof ls)).statements (ls ++ [eof]) := by
  fun_induction items limit eof ls with
  | case1 => exact .nil _
  | case2 first rest result ih =>
    obtain ⟨used, hused⟩ := statement_suffix limit eof first rest
    have split : first :: rest ++ [eof] = (first :: used) ++ (result.2 ++ [eof]) := by
      rw [← hused]
      simp [result]
    have others := ih (ordered.sublist (by rw [split]; exact List.sublist_append_right _ _))
    cases outcome : result.1.outcome with
    | rejected d =>
      simp only [programOf, List.filterMap_cons, outcome] at others ⊢
      rw [split]
      exact others.prepend (first :: used)
    | accepted s =>
      have step : statement limit eof first rest = (⟨.accepted s, result.1.ahead⟩, result.2) := by
        rw [← outcome]
      obtain ⟨block, tail, hblock, stands, left⟩ :=
        (statement_eq_accepted_iff.mp step).1.standsOn ordered
      have row : StandInRow eof (programOf (items limit eof result.2)).statements tail := by
        rcases left with ended | ⟨gap, hgap⟩
        · rw [ended, items]
          exact .nil _
        · rw [← hgap]
          exact others.prepend gap
      simp only [programOf, List.filterMap_cons, outcome] at row ⊢
      rw [hblock]
      exact .cons [] stands row

end Parser

/-! ## Texts -/

/-- The statements of a text stand on its tokens one after the other, with all their parts; each of
them ends before the next one starts, and the span of the program goes from the start of the first
to the end of the last. A text without positions has no program. -/
theorem parse_stands (limit : UInt64) (text : List Char) :
    (∀ place, Position.start.advanceAll text = .ok place → ∃ tokens eof p ds,
      tokenize text = .ok (tokens ++ [eof]) ∧ (∀ l ∈ tokens, l.kind ≠ .eof) ∧ eof.kind = .eof ∧
      parse limit text = .ok (p, ds) ∧ StandInRow eof p.statements (tokens ++ [eof]) ∧
      (p.statements.Pairwise fun s t => s.span.Before t.span) ∧
      (∀ first last, p.statements.head? = some first → p.statements.getLast? = some last →
        p.span = ⟨first.span.start, last.span.stop⟩) ∧
      ∀ s ∈ p.statements, s.span.Inside p.span) ∧
    (∀ fault, Position.start.advanceAll text = .error fault → parse limit text = .error fault) := by
  refine ⟨fun place there => ?_, fun fault missing => parse_eq_error missing⟩
  obtain ⟨ls, laid⟩ := exists_laid there
  have row : StandInRow _ (Parser.programOf (Parser.items limit (.eofAt place) ls)).statements _ :=
    Parser.standInRow_items laid.inOrder
  have ordered := row.precedes laid.inOrder
  have forward := row.forward laid.inOrder
  refine ⟨ls, .eofAt place, _, _, tokenize_eq_ok_iff.mpr ⟨ls, _, laid, rfl⟩,
    fun l hl => (laid.spelled l hl).kind_ne_eof, rfl,
      parse_eq_ok_iff.mpr ⟨ls, _, laid, rfl, rfl⟩, row,
    ordered.imp Position.Precedes.le, fun first last head final =>
      (Program.span_of_precedes ordered forward head final).1, fun s hs => ?_⟩
  -- a statement is there, so there is a first and a last one
  have nonempty := List.ne_nil_of_mem hs
  exact (Program.span_of_precedes ordered forward (List.head?_eq_some_head nonempty)
    (List.getLast?_eq_some_getLast nonempty)).2 s hs

/-- A sum, a parenthesis that is rejected and a product. -/
theorem parse_stands_rejected :
    Position.start.advanceAll "-a + 1;); b*2 ".toList = .ok ⟨14, 1, 15⟩ ∧ ∃ tokens eof p d,
      tokenize "-a + 1;); b*2 ".toList = .ok (tokens ++ [eof]) ∧
      parse 256 "-a + 1;); b*2 ".toList = .ok (p, [d]) ∧ p.statements.length = 2 ∧
      StandInRow eof p.statements (tokens ++ [eof]) ∧
      (p.statements.Pairwise fun s t => s.span.Before t.span) ∧
      p.span = ⟨⟨0, 1, 1⟩, ⟨13, 1, 14⟩⟩ ∧ ∀ s ∈ p.statements, s.span.Inside p.span := by
  have there : Position.start.advanceAll "-a + 1;); b*2 ".toList = .ok ⟨14, 1, 15⟩ := rfl
  obtain ⟨tokens, eof, p, ds, tokenized, -, -, parsed, row, before, -, inside⟩ :=
    (parse_stands 256 "-a + 1;); b*2 ".toList).1 _ there
  have shape : (parse 256 "-a + 1;); b*2 ".toList).map
      (fun result => (result.1.statements.length, result.2.length, result.1.span)) =
        .ok (2, 1, ⟨⟨0, 1, 1⟩, ⟨13, 1, 14⟩⟩) := by decide +kernel
  rw [parsed] at shape
  obtain ⟨count, rejected, whole⟩ :
      p.statements.length = 2 ∧ ds.length = 1 ∧ p.span = ⟨⟨0, 1, 1⟩, ⟨13, 1, 14⟩⟩ := by
    simpa [Except.map] using shape
  obtain ⟨d, rfl⟩ := List.length_eq_one_iff.mp rejected
  exact ⟨there, tokens, eof, p, d, tokenized, parsed, count, row, before, whole, inside⟩

end Frontend
