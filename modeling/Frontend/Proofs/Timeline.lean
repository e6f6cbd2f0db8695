import Frontend.Report
import Frontend.Proofs.Parser.Window

/-!
# What is reported of a text

To process a text gives the report that its lexemes make up, and events on lexemes and statements on
the way (`exists_process_timeline`). The two kinds come one among the other, but whoever looks at
one kind alone sees it in its own order: the lexemes as they stand in the text
(`filter_timeline_lexemes`), the statements as they come out (`filter_timeline_outcomes`). So it is
for whole texts (`exists_process_eq`).
-/

set_option autoImplicit false

namespace Frontend

/-! ## Lexemes and statements in time -/

namespace Parser

section

variable {lexemeNotes : Lexeme → List Event} {outcomeNotes : Outcome → List Event}
  {p : Event → Bool}

theorem filter_timeline_lexemes (others : ∀ o, (outcomeNotes o).filter p = [])
    (pending : List Lexeme) (left : Nat) (items : List Item) :
    (timeline lexemeNotes outcomeNotes pending left items).filter p =
    (pending.flatMap lexemeNotes).filter p := by
  induction items generalizing pending left with
  | nil => rfl
  | cons item items ih =>
    rw [timeline, List.filter_append, List.filter_append, ih, others, List.append_nil,
      ← List.filter_append, ← List.flatMap_append, List.take_append_drop]

theorem filter_flatMap_eq_nil (others : ∀ l, (lexemeNotes l).filter p = []) (ls : List Lexeme) :
    (ls.flatMap lexemeNotes).filter p = [] := by
  simp [List.filter_flatMap, others]

theorem filter_timeline_outcomes (others : ∀ l, (lexemeNotes l).filter p = [])
    (pending : List Lexeme) (left : Nat) (items : List Item) :
    (timeline lexemeNotes outcomeNotes pending left items).filter p =
      (items.flatMap fun item => outcomeNotes item.outcome).filter p := by
  induction items generalizing pending left with
  | nil => exact filter_flatMap_eq_nil others pending
  | cons item items ih =>
    rw [timeline, List.filter_append, List.filter_append, ih, filter_flatMap_eq_nil others,
      List.nil_append, List.flatMap_cons, List.filter_append]

end

end Parser

/-! ## Counts of tokens -/

theorem Metrics.total_record (preferences : LexicalPreferences) (m : Metrics) (t : Token) :
    (m.record preferences t).total = m.total + 1 := by
  unfold record
  grind

theorem Lexer.total_counts (lexer : Lexer) (ls : List Lexeme) :
    (lexer.counts ls).total = lexer.metrics.total + ls.length := by
  induction ls generalizing lexer with
  | nil => rfl
  | cons l ls ih =>
    have rest := ih { lexer with metrics := lexer.metrics.record lexer.preferences l.token }
    rw [Metrics.total_record] at rest
    rw [List.length_cons, Nat.add_comm ls.length 1, ← Nat.add_assoc]
    exact rest

/-- The report that the lexemes of a text make up. -/
def Report.ofLexemes (limits : Limits) (preferences : LexicalPreferences) (text : List Char)
    (ls : List Lexeme) (eof : Lexeme) : Report where
  source := text
  program := Parser.programOf (Parser.items limits.maxParseDepth eof ls)
  diagnostics := Parser.diagnosticsOf (Parser.items limits.maxParseDepth eof ls)
  metrics := (Lexer.ofText preferences text).counts ls

theorem Report.tokenCount_ofLexemes (limits : Limits) (preferences : LexicalPreferences)
    (text : List Char) (ls : List Lexeme) (eof : Lexeme) :
    (ofLexemes limits preferences text ls eof).tokenCount = ls.length := by
  rw [tokenCount, ofLexemes, Lexer.total_counts]
  exact Nat.zero_add ls.length

/-! ## Whole texts -/

theorem Parser.program_eq (limits : Limits) {p : Parser} {rest : List Lexeme} {eof : Lexeme}
    (h : p.lexer.Faces rest eof) (none : p.diagnostics = []) :
    ∃ after, p.program limits = .ok
      { program := programOf (items limits.maxParseDepth eof (p.window ++ rest))
        parser := after
        events :=
          timeline (Lexeme.notes limits p.lexer.preferences (p.lexer.counts rest))
            (Outcome.notes limits p.preferences)
            (p.lexer.unreported rest eof) (p.lexer.unreported rest eof).length
            (items limits.maxParseDepth eof (p.window ++ rest)) ++
          [(programOf (items limits.maxParseDepth eof (p.window ++ rest))).note limits
            after.diagnostics.length] } ∧
      after.diagnostics = diagnosticsOf (items limits.maxParseDepth eof (p.window ++ rest)) ∧
      after.lexer.metrics = p.lexer.counts rest := by
  have remaining : p.lexer.remaining = .ok (rest, eof) := lexemesFrom_eq_ok_iff.mpr h
  unfold program
  rw [remaining, none]
  exact ⟨_, rfl, rfl, rfl⟩

/-- A text is processed to the report that its lexemes make up. Some lexemes are reported on before
parsing starts, and the others are still pending then. -/
theorem exists_process_timeline (limits : Limits) (c : Preferences) (duration : String)
    {text : List Char} {ls : List Lexeme} {eof : Lexeme} (h : Laid .start text ls eof) :
    let report := Report.ofLexemes limits c.lexical text ls eof
    ∃ opening pending, process limits c duration text = .ok (report,
        (opening ++ Parser.timeline (Lexeme.notes limits c.lexical report.metrics)
          (Parser.Outcome.notes limits c.parser) pending pending.length
            (Parser.items limits.maxParseDepth eof ls)) ++
        [report.program.note limits report.diagnostics.length, report.note limits duration]) ∧
      opening ++ pending.flatMap (Lexeme.notes limits c.lexical report.metrics) =
        (ls ++ [eof]).flatMap (Lexeme.notes limits c.lexical report.metrics) := by
  have faces : (Lexer.ofText c.lexical text).Faces ls eof := h
  obtain ⟨parser, opening, rest, made, ahead, rfl, none, hparser, hlexer, hcounts, notes⟩ :=
    Parser.exists_ofLexer_notes limits c.parser faces
  obtain ⟨after, parsed, hdiagnostics, hmetrics⟩ := Parser.program_eq limits ahead none
  rw [hlexer, hparser, hcounts] at parsed
  rw [hcounts] at hmetrics
  refine ⟨opening, _, ?_, notes fun ended => by cases ended⟩
  unfold process Report.ofLexemes
  rw [made]
  change (parser.program limits >>= _) = _
  rw [parsed, ← hdiagnostics, ← hmetrics]
  simp only [bind, Except.bind, pure, Except.pure, List.append_assoc, List.singleton_append]
  rfl

/-- The last two events of a text are that the tree is built and that the text is processed. Of
those before, a kind of events that statements do not cause is seen as the lexemes cause it, and a
kind that lexemes do not cause is seen as the statements cause it. -/
theorem exists_process_eq (limits : Limits) (c : Preferences) (duration : String) {text : List Char}
    {ls : List Lexeme} {eof : Lexeme} (h : Laid .start text ls eof) :
    let report := Report.ofLexemes limits c.lexical text ls eof
    ∃ front, process limits c duration text = .ok (report, front ++
        [report.program.note limits report.diagnostics.length, report.note limits duration]) ∧
      (∀ p, (∀ o, (Parser.Outcome.notes limits c.parser o).filter p = []) →
        front.filter p =
          ((ls ++ [eof]).flatMap (Lexeme.notes limits c.lexical report.metrics)).filter p) ∧
      (∀ p, (∀ l, (Lexeme.notes limits c.lexical report.metrics l).filter p = []) →
        front.filter p = ((Parser.items limits.maxParseDepth eof ls).flatMap fun item =>
          item.outcome.notes limits c.parser).filter p) := by
  intro report
  obtain ⟨opening, pending, processed, notes⟩ := exists_process_timeline limits c duration h
  refine ⟨_, processed, fun p others => ?_, fun p others => ?_⟩
  · rw [List.filter_append, Parser.filter_timeline_lexemes others, ← List.filter_append, notes]
  · have all := (congrArg (List.filter p) notes).trans (Parser.filter_flatMap_eq_nil others _)
    rw [List.filter_append] at all
    rw [List.filter_append, (List.append_eq_nil_iff.mp all).1, List.nil_append,
      Parser.filter_timeline_outcomes others]

theorem process_eq_error (limits : Limits) (c : Preferences) (duration : String) {text : List Char}
    {fault : Fault} (h : Position.start.advanceAll text = .error fault) :
    process limits c duration text = .error fault := by
  have remaining : (Lexer.ofText c.lexical text).remaining = .error fault := lexemesFrom_eq_error h
  have failed := Parser.program_eq_error limits c.parser remaining
  unfold process
  cases made : Parser.ofLexer limits c.parser (.ofText c.lexical text) with
  | error other =>
    rw [made] at failed
    cases failed
    rfl
  | ok opened =>
    rw [made] at failed
    replace failed : opened.1.program limits = .error fault := failed
    simp only [bind, Except.bind, failed]

end Frontend
