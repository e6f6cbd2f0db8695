import Frontend.Parser.Notes
import Frontend.Proofs.Event

/-!
# What is reported of lexemes and statements

There are few kinds of reports on lexemes (`Lexeme.mem_notes`) and on statements
(`Statement.mem_notes`, `Diagnostic.mem_notes`), and they can be told apart by level, code and
message: no diagnostic has a text that could be mistaken for a remark (`Diagnostic.message_ne`). So
the reports of one kind can be counted off against what they are about.
-/

set_option autoImplicit false

namespace Frontend

/-! ## Fields of events -/

@[simp] theorem Event.level_withSpan (e : Event) (span : Span) :
    (e.withSpan span).level = e.level := rfl

@[simp] theorem Event.code_withSpan (e : Event) (span : Span) :
    (e.withSpan span).code = e.code := rfl

@[simp] theorem Event.level_debug (limits : Limits) (text : String) :
    (debug limits text).level = .debug := rfl

@[simp] theorem Event.code_debug (limits : Limits) (text : String) :
    (debug limits text).code = .plainDebug := rfl

@[simp] theorem Event.level_error (limits : Limits) (code : Code) (text : String) :
    (error limits code text).level = .error := rfl

@[simp] theorem Event.code_error (limits : Limits) (code : Code) (text : String) :
    (error limits code text).code = code := rfl

@[simp] theorem Metrics.level_note (limits : Limits) (m : Metrics) :
    (m.note limits).level = .info :=
  Event.level_withContexts _ _

@[simp] theorem Metrics.code_note (limits : Limits) (m : Metrics) :
    (m.note limits).code = .tokenized :=
  Event.code_withContexts _ _

@[simp] theorem Program.level_note (limits : Limits) (p : Program) (errors : Nat) :
    (p.note limits errors).level = .info :=
  Event.level_withContexts _ _

@[simp] theorem Program.code_note (limits : Limits) (p : Program) (errors : Nat) :
    (p.note limits errors).code = .treeBuilt :=
  Event.code_withContexts _ _

/-! ## Kinds of reports -/

namespace Lexeme

variable {l : Lexeme} (limits : Limits) (c : LexicalPreferences) (m : Metrics)

theorem notes_eof (kind : l.kind = .eof) : l.notes limits c m = [m.note limits] := by
  rw [notes, kind]

theorem notes_illegal (kind : l.kind = .illegal) :
    ∃ context, l.notes limits c m = if c.logIllegal then
      [(Event.debug limits "Illegal character in source").withContexts context] else [] := by
  rw [notes, kind]
  exact ⟨_, rfl⟩

theorem notes_other (more : l.kind ≠ .eof) (legal : l.kind ≠ .illegal) :
    l.notes limits c m = [] := by
  unfold notes
  split
  · contradiction
  · contradiction
  · rfl

variable {limits c m}

theorem mem_notes {e : Event} (h : e ∈ l.notes limits c m) :
    (l.kind = .eof ∧ e = m.note limits) ∨
      ∃ context, e = (Event.debug limits "Illegal character in source").withContexts context := by
  by_cases ended : l.kind = .eof
  · rw [notes_eof limits c m ended] at h
    exact .inl ⟨ended, List.mem_singleton.mp h⟩
  · by_cases illegal : l.kind = .illegal
    · obtain ⟨context, hnotes⟩ := notes_illegal limits c m illegal
      rw [hnotes] at h
      split at h
      · exact .inr ⟨context, List.mem_singleton.mp h⟩
      · cases h
    · rw [notes_other limits c m ended illegal] at h
      cases h

end Lexeme

theorem Statement.mem_notes {limits : Limits} {c : ParserPreferences} {s : Statement} {e : Event}
    (h : e ∈ s.notes limits c) :
    ∃ context, e = (Event.debug limits "Parsed statement").withContexts context := by
  unfold notes at h
  split at h
  · exact ⟨_, List.mem_singleton.mp h⟩
  · cases h

theorem Diagnostic.mem_notes {limits : Limits} {c : ParserPreferences} {d : Diagnostic} {e : Event}
    (h : e ∈ d.notes limits c) :
    (∃ context, e = (Event.debug limits "Expression nesting limit reached").withContexts context) ∨
      e = (Event.error limits d.code d.message).withSpan d.span := by
  unfold notes at h
  rcases List.mem_append.mp h with h | h
  · split at h
    · exact .inl ⟨_, List.mem_singleton.mp h⟩
    · cases h
  · split at h
    · exact .inr (List.mem_singleton.mp h)
    · cases h

/-! ## Errors -/

theorem Lexeme.filter_notes_errors (limits : Limits) (c : LexicalPreferences) (m : Metrics)
    (l : Lexeme) :
    (l.notes limits c m).filter (·.level = .error) = [] := by
  rw [List.filter_eq_nil_iff]
  intro e he
  rcases mem_notes he with ⟨-, rfl⟩ | ⟨context, rfl⟩
  · simp
  · simp

theorem Parser.Outcome.filter_notes_errors (limits : Limits) (c : ParserPreferences)
    (items : List Item) :
    (items.flatMap fun item => item.outcome.notes limits c).filter (·.level = .error) =
      if c.logDiagnostics then
        (diagnosticsOf items).map fun d => (Event.error limits d.code d.message).withSpan d.span
      else [] := by
  induction items with
  | nil => simp [diagnosticsOf]
  | cons item items ih =>
    rw [List.flatMap_cons, List.filter_append, ih]
    cases outcome : item.outcome with
    | accepted s =>
      have none : (s.notes limits c).filter (·.level = .error) = [] := by
        unfold Statement.notes
        split <;> simp
      simp [notes, none, diagnosticsOf, outcome]
    | rejected d =>
      have one : (d.notes limits c).filter (·.level = .error) =
          if c.logDiagnostics
            then [(Event.error limits d.code d.message).withSpan d.span] else [] := by
        unfold Diagnostic.notes
        rw [List.filter_append]
        cases d <;> split <;> simp
      simp only [notes, one, diagnosticsOf, outcome, List.filterMap_cons]
      split <;> rfl

/-! ## Milestones -/

/-- The codes of what is reported once of every text, in order. -/
def Code.milestones : List Code := [.tokenized, .treeBuilt, .sourceProcessed]

theorem Code.plainDebug_not_milestone : Code.plainDebug ∉ Code.milestones := by decide

theorem Diagnostic.code_not_milestone (d : Diagnostic) : d.code ∉ Code.milestones := by
  cases d with
  | unexpectedToken expected actual span =>
    exact (by decide : Code.unexpectedToken ∉ Code.milestones)
  | noOperand kind span => exact (by decide : Code.noOperand ∉ Code.milestones)
  | integerRange literal span => exact (by decide : Code.integerRange ∉ Code.milestones)
  | tooDeep limit span => exact (by decide : Code.tooDeep ∉ Code.milestones)

theorem Parser.Outcome.filter_notes_milestones (limits : Limits) (c : ParserPreferences)
    (o : Outcome) :
    (o.notes limits c).filter (·.code ∈ Code.milestones) = [] := by
  rw [List.filter_eq_nil_iff]
  intro e he
  cases o with
  | accepted s =>
    obtain ⟨context, rfl⟩ := s.mem_notes he
    simp [Code.plainDebug_not_milestone]
  | rejected d =>
    rcases d.mem_notes he with ⟨context, rfl⟩ | rfl
    · simp [Code.plainDebug_not_milestone]
    · simp [d.code_not_milestone]

theorem Lexeme.filter_notes_milestones (limits : Limits) (c : LexicalPreferences) (m : Metrics)
    {ls : List Lexeme} {eof : Lexeme} (kinds : ∀ l ∈ ls, l.kind ≠ .eof) (ending : eof.kind = .eof) :
    ((ls ++ [eof]).flatMap (notes limits c m)).filter (·.code ∈ Code.milestones) =
    [m.note limits] := by
  have none : (ls.flatMap (notes limits c m)).filter (·.code ∈ Code.milestones) = [] := by
    rw [List.filter_eq_nil_iff]
    intro e he
    obtain ⟨l, hl, he⟩ := List.mem_flatMap.mp he
    rcases mem_notes he with ⟨ended, -⟩ | ⟨context, rfl⟩
    · exact absurd ended (kinds l hl)
    · simp [Code.plainDebug_not_milestone]
  have there : Code.tokenized ∈ Code.milestones := by decide
  rw [List.flatMap_append, List.filter_append, none, List.flatMap_singleton,
    notes_eof limits c m ending]
  simp [there]

/-! ## Remarks -/

theorem Diagnostic.head?_message (d : Diagnostic) :
    d.message.toList.head? ∈ [some 'e', some 'n', some 'c'] := by
  cases d <;> dsimp only [message] <;> simp

theorem Diagnostic.message_ne (d : Diagnostic) {text : String}
    (h : text.toList.head? ∉ [some 'e', some 'n', some 'c']) : d.message ≠ text := by
  rintro rfl
  exact h d.head?_message

section

variable {limits : Limits} (fits : 64 ≤ limits.maxMessageLength.toNat)
include fits

theorem Event.message_debug {text : String} (short : text.utf8ByteSize ≤ 64) :
    (Event.debug limits text).message = text :=
  cut_of_le (Nat.le_trans short fits)

theorem Metrics.message_note (m : Metrics) : (m.note limits).message = "Tokenization completed" :=
  (Event.message_withContexts _ _).trans (Event.cut_of_le (Nat.le_trans (by decide) fits))

theorem Program.message_note (p : Program) (errors : Nat) :
    (p.note limits errors).message = "AST construction completed" :=
  (Event.message_withContexts _ _).trans (Event.cut_of_le (Nat.le_trans (by decide) fits))

theorem Diagnostic.message_notes_ne (c : ParserPreferences) (d : Diagnostic) (text : String)
    (capital : text.toList.head? ∉ [some 'e', some 'n', some 'c'])
    (last : text.toList.getLast? ≠ some '.') (other : "Expression nesting limit reached" ≠ text) :
    ∀ e ∈ d.notes limits c, e.message ≠ text := by
  intro e he
  rcases d.mem_notes he with ⟨context, rfl⟩ | rfl
  · rw [Event.message_withContexts, Event.message_debug fits (by decide)]
    exact other
  · exact Event.cut_ne (d.message_ne capital) last

theorem Parser.Outcome.filter_notes_illegal (c : ParserPreferences) (o : Outcome) :
    (o.notes limits c).filter (·.message = "Illegal character in source") = [] := by
  rw [List.filter_eq_nil_iff]
  intro e he
  cases o with
  | accepted s =>
    obtain ⟨context, rfl⟩ := s.mem_notes he
    rw [Event.message_withContexts, Event.message_debug fits (by decide)]
    decide
  | rejected d =>
    have other :=
      d.message_notes_ne fits c "Illegal character in source" (by decide) (by decide)
        (by decide) e he
    simp [other]

theorem Lexeme.filter_notes_parsed (c : LexicalPreferences) (m : Metrics) (l : Lexeme) :
    (l.notes limits c m).filter (·.message = "Parsed statement") = [] := by
  rw [List.filter_eq_nil_iff]
  intro e he
  rcases mem_notes he with ⟨-, rfl⟩ | ⟨context, rfl⟩
  · rw [m.message_note fits]
    decide
  · rw [Event.message_withContexts, Event.message_debug fits (by decide)]
    decide

theorem Lexeme.countP_notes_illegal (c : LexicalPreferences) (m : Metrics) (ls : List Lexeme) :
    (ls.flatMap (notes limits c m)).countP (·.message = "Illegal character in source") =
      if c.logIllegal then ls.countP (·.kind = .illegal) else 0 := by
  have remark : (Event.debug limits "Illegal character in source").message =
      "Illegal character in source" :=
    Event.message_debug fits (by decide)
  have finished : (m.note limits).message ≠ "Illegal character in source" := by
    rw [m.message_note fits]
    decide
  induction ls with
  | nil => simp
  | cons l ls ih =>
    rw [List.flatMap_cons, List.countP_append, ih, List.countP_cons, Nat.add_comm]
    by_cases illegal : l.kind = .illegal
    · obtain ⟨context, hnotes⟩ := notes_illegal limits c m illegal
      by_cases logged : c.logIllegal = true
      · simp [hnotes, logged, illegal, remark]
      · simp [hnotes, logged]
    · by_cases ended : l.kind = .eof
      · simp [notes_eof limits c m ended, illegal, finished]
      · simp [notes_other limits c m ended illegal, illegal]

theorem Parser.Outcome.countP_notes_parsed (c : ParserPreferences) (items : List Item) :
    (items.flatMap fun item => item.outcome.notes limits c).countP
    (·.message = "Parsed statement") =
      if c.traceStatements then (programOf items).statements.length else 0 := by
  have remark : (Event.debug limits "Parsed statement").message = "Parsed statement" :=
    Event.message_debug fits (by decide)
  induction items with
  | nil => simp [programOf]
  | cons item items ih =>
    rw [List.flatMap_cons, List.countP_append, ih]
    cases outcome : item.outcome with
    | accepted s =>
      by_cases traced : c.traceStatements = true
      · simp [notes, Statement.notes, traced, remark, programOf, outcome, Nat.add_comm]
      · simp [notes, Statement.notes, traced]
    | rejected d =>
      have other := d.message_notes_ne fits c "Parsed statement" (by decide) (by decide) (by decide)
      have none : (d.notes limits c).countP (·.message = "Parsed statement") = 0 := by
        simpa [List.countP_eq_zero] using other
      simp [notes, none, programOf, outcome]

end

end Frontend
