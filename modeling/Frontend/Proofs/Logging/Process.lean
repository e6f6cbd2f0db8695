import Mathlib.Control.Monad.Basic
import Frontend.Logging.Process
import Frontend.Proofs.Logging.Dispatch
import Frontend.Proofs.Parser.Lockstep
import Frontend.Proofs.Parser.Notes

/-!
# Processing and what is logged of it

What comes of a text is what the parser at work has in the end, and its steps are the same under all
preferences, so neither these nor the logging state have an influence on it
(`processText_independent`). The events on the way, on the other hand, give an account of what came
of it (`exists_account`): the errors are the diagnostics, three milestones carry the counts of the
report, and the remarks for debugging are as many as what they remark on. With a service installed,
that is what reaches the service.
-/

set_option autoImplicit false

namespace Frontend

/-! ## Findings -/

/-- What a report says of a text, apart from counts by class of tokens. -/
def Report.findings (r : Report) : Program × List Diagnostic × Nat × String :=
  (r.program, r.diagnostics, r.tokenCount, r.render)

theorem Parser.Machine.Agrees.findings {m m' : Parser.Machine} (h : m.Agrees m')
    (text : List Char) : (m.report text).findings = (m'.report text).findings := by
  have plain : ∀ n : Parser.Machine, (n.report text).findings = (n.plain.report text).findings :=
    fun n => rfl
  rw [plain m, h, ← plain m']

namespace Logging

theorem processText_eq_error (limits : Limits) (env : Environment) (c : Preferences)
    (duration : String) {text : List Char} {fault : Fault}
    (h : Position.start.advanceAll text = .error fault) (s : Logging) :
    processText limits env c duration text s = .error fault := by
  rw [processText, process_eq_error limits c duration h]
  rfl

/-- A text that has positions is processed, and any other fails in one way. What the report says of
the text is the same under all preferences, in all environments and from all states of logging. It
is so at every step on the way: what has been counted by class and reported up to there has no
influence on the next. -/
theorem processText_independent (limits : Limits) (text : List Char) (env env' : Environment)
    (c c' : Preferences) (duration duration' : String) (s s' : Logging) :
    (processText limits env c duration text s).isOk = (Position.start.advanceAll text).isOk ∧
    (processText limits env c duration text s).map (fun result => result.1.findings) =
      (processText limits env' c' duration' text s').map (fun result => result.1.findings) ∧
    ∀ steps,
      (Parser.Machine.after limits c.parser (.ofText c.lexical text) steps).map
          (Option.map Parser.Machine.plain) =
        (Parser.Machine.after limits c'.parser (.ofText c'.lexical text) steps).map
          (Option.map Parser.Machine.plain) := by
  have same : (Lexer.ofText c.lexical text).plain = (Lexer.ofText c'.lexical text).plain := rfl
  have lockstep := Parser.Machine.after_plain limits c.parser c'.parser same
  cases there : Position.start.advanceAll text with
  | error fault =>
    rw [processText_eq_error limits env c duration there,
      processText_eq_error limits env' c' duration' there]
    exact ⟨rfl, rfl, lockstep⟩
  | ok place =>
    obtain ⟨ls, laid⟩ := exists_laid there
    obtain ⟨k, last, reached, finished, processed⟩ :=
      Parser.Machine.exists_process_after limits c duration laid
    obtain ⟨k', last', reached', finished', processed'⟩ :=
      Parser.Machine.exists_process_after limits c' duration' laid
    have agrees : last.Agrees last' :=
      Parser.Machine.agrees_of_finished same reached finished reached' finished'
    rw [processText, processText, processed, processed']
    exact ⟨rfl, congrArg Except.ok (agrees.findings text), lockstep⟩

end Logging

/-! ## Counts in events -/

/-- The context of an event has counts by their names. -/
def Event.Shows (e : Event) (counts : List (String × Nat)) : Prop :=
  ∀ count ∈ counts, e.context.lookup count.1 = some (toString count.2)

theorem Event.shows_withContexts (e : Event) {pairs : List (String × String)}
    (distinct : (pairs.map (·.1)).Nodup) {counts : List (String × Nat)}
    (among : ∀ count ∈ counts, (count.1, toString count.2) ∈ pairs) :
    (e.withContexts pairs).Shows counts :=
  fun count h => lookup_withContexts e distinct (among count h)

theorem Event.Shows.attach {e : Event} {counts : List (String × Nat)} (h : e.Shows counts)
    (others : "source" ∉ counts.map (·.1)) (env : Environment) (s : Logging) :
    (s.attach env e).Shows counts := by
  intro count hcount
  have other : count.1 ≠ "source" := fun same => others (same ▸ List.mem_map_of_mem hcount)
  rw [s.lookup_attach env e other]
  exact h count hcount

theorem Metrics.shows_note (limits : Limits) (m : Metrics) :
    (m.note limits).Shows [("tokens", m.total), ("keywords", m.keywords),
      ("identifiers", m.identifiers),
      ("integers", m.integers), ("operators", m.operators), ("illegal", m.illegal)] :=
  Event.shows_withContexts _ (by simp) (by simp)

theorem Program.shows_note (limits : Limits) (p : Program) (errors : Nat) :
    (p.note limits errors).Shows [("statements", p.statements.length), ("errors", errors)] :=
  Event.shows_withContexts _ (by simp) (by simp)

theorem Report.shows_note (limits : Limits) (duration : String) (r : Report) :
    (r.note limits duration).Shows [("tokens", r.tokenCount),
      ("statements", r.program.statements.length),
      ("diagnostics", r.diagnostics.length)] :=
  Event.shows_withContexts _ (by simp) (by simp)

/-! ## The events of a text -/

@[simp] theorem Report.level_note (limits : Limits) (duration : String) (r : Report) :
    (r.note limits duration).level = .info :=
  Event.level_withContexts _ _

@[simp] theorem Report.code_note (limits : Limits) (duration : String) (r : Report) :
    (r.note limits duration).code = .sourceProcessed :=
  Event.code_withContexts _ _

theorem Report.message_note {limits : Limits} (fits : 64 ≤ limits.maxMessageLength.toNat)
    (duration : String) (r : Report) :
    (r.note limits duration).message = "Source processing completed" :=
  (Event.message_withContexts _ _).trans (Event.cut_of_le (Nat.le_trans (by decide) fits))

/-- The events of a text by kinds: errors, milestones, and two kinds of remarks. -/
structure Account (limits : Limits) (c : Preferences) (duration : String) (tokens : List Lexeme)
    (report : Report) (events : List Event) : Prop where
  errors : events.filter (·.level = .error) =
    if c.parser.logDiagnostics then
      report.diagnostics.map fun d => (Event.error limits d.code d.message).withSpan d.span
    else []
  milestones : events.filter (·.code ∈ Code.milestones) =
    [report.metrics.note limits, report.program.note limits report.diagnostics.length,
      report.note limits duration]
  last : events.getLast? = some (report.note limits duration)
  illegal : events.countP (·.message = "Illegal character in source") =
    if c.lexical.logIllegal then tokens.countP (·.kind = .illegal) else 0
  parsed : events.countP (·.message = "Parsed statement") =
    if c.parser.traceStatements then report.program.statements.length else 0

theorem exists_account {limits : Limits} (fits : 64 ≤ limits.maxMessageLength.toNat)
    (c : Preferences) (duration : String) {text : List Char} {ls : List Lexeme} {eof : Lexeme}
    (h : Laid .start text ls eof) :
    ∃ report events, process limits c duration text = .ok (report, events) ∧
      Account limits c duration (ls ++ [eof]) report events := by
  obtain ⟨front, processed, byLexemes, byStatements⟩ := exists_process_eq limits c duration h
  refine ⟨_, _, processed, ?_, ?_, ?_, ?_, ?_⟩
  · rw [List.filter_append, byStatements _ (Lexeme.filter_notes_errors limits c.lexical _),
      Parser.Outcome.filter_notes_errors]
    simp [Report.ofLexemes]
  · have kinds : ∀ l ∈ ls, l.kind ≠ .eof := fun l hl => (h.spelled l hl).kind_ne_eof
    have built : Code.treeBuilt ∈ Code.milestones := by decide
    have done : Code.sourceProcessed ∈ Code.milestones := by decide
    rw [List.filter_append, byLexemes _ (Parser.Outcome.filter_notes_milestones limits c.parser),
      Lexeme.filter_notes_milestones limits c.lexical _ kinds h.eof_kind]
    simp [built, done]
  · simp
  · rw [List.countP_append, List.countP_eq_length_filter,
      byLexemes _ (Parser.Outcome.filter_notes_illegal fits c.parser),
      ← List.countP_eq_length_filter,
      Lexeme.countP_notes_illegal fits]
    simp [Program.message_note fits, Report.message_note fits]
  · rw [List.countP_append, List.countP_eq_length_filter,
      byStatements _ (Lexeme.filter_notes_parsed fits c.lexical _), ← List.countP_eq_length_filter,
      Parser.Outcome.countP_notes_parsed fits]
    simp [Program.message_note fits, Report.message_note fits, Report.ofLexemes]

namespace Account

variable {limits : Limits} {c : Preferences} {duration : String} {tokens : List Lexeme}
  {report : Report} {events : List Event} (account : Account limits c duration tokens report events)
  (env : Environment) (s : Logging)
include account

theorem sent_errors :
    ((s.sent env events).filter (·.level = .error)).map (fun e => (e.code, e.span, e.message)) =
      if c.parser.logDiagnostics then report.diagnostics.map fun d =>
          (d.code, some d.span, Event.cut limits.maxMessageLength.toNat d.message)
        else [] := by
  rw [s.filter_sent env (by simp), account.errors]
  split
  · rw [s.sent_of_level_ne env (by simp), List.map_map, List.map_map]
    apply List.map_congr_left
    intro d _
    simp only [Function.comp_apply, Logging.code_attach, Logging.span_attach,
      Logging.message_attach]
    rfl
  · rfl

theorem sent_milestones :
    (s.sent env events).filter (·.code ∈ Code.milestones) =
      [s.attach env (report.metrics.note limits),
        s.attach env (report.program.note limits report.diagnostics.length),
        s.attach env (report.note limits duration)] := by
  rw [s.filter_sent env (by simp), account.milestones, s.sent_of_level_ne env (by simp)]
  rfl

theorem sent_last :
    (s.sent env events).getLast? = some (s.attach env (report.note limits duration)) := by
  obtain ⟨front, rfl⟩ := List.getLast?_eq_some_iff.mp account.last
  have wanted : s.wants env (report.note limits duration) = true := by simp [Logging.wants]
  simp [Logging.sent, wanted]

end Account

namespace Logging

/-- With a service installed, the events that reach it are faithful to the report. The errors are
the diagnostics in order, if these are to be logged at all. Once each and in this order it is
reported that the text is cut into tokens, that the tree is built and, at the very end, that the
text is processed, with the counts of the report. If the preferences that get pinned want events for
debugging, there is one for each illegal token and for each statement, as far as preferences ask for
these. -/
theorem sent_faithful {limits : Limits} {profile : String}
    (admitted : limits.problem? profile = none) (env : Environment) (c : Preferences)
    (duration : String) (s : Logging) {text : List Char} {place : Position}
    (there : Position.start.advanceAll text = .ok place) :
    ∃ tokens report sent, tokenize text = .ok tokens ∧
      (∀ service, processText limits env c duration text { s with service := some service } =
        .ok (report, deliverAll limits service sent (pin env { s with service := some service }))) ∧
      (sent.filter (·.level = .error)).map (fun e => (e.code, e.span, e.message)) =
        (if c.parser.logDiagnostics then report.diagnostics.map fun d =>
            (d.code, some d.span, Event.cut limits.maxMessageLength.toNat d.message)
          else []) ∧
      (∃ lexed built done, sent.filter (·.code ∈ [.tokenized, .treeBuilt, .sourceProcessed]) =
        [lexed, built, done] ∧
        lexed.code = .tokenized ∧ built.code = .treeBuilt ∧ done.code = .sourceProcessed ∧
        sent.getLast? = some done ∧
        lexed.Shows [("tokens", report.metrics.total), ("keywords", report.metrics.keywords),
          ("identifiers", report.metrics.identifiers), ("integers", report.metrics.integers),
          ("operators", report.metrics.operators), ("illegal", report.metrics.illegal)] ∧
        built.Shows [("statements", report.program.statements.length),
          ("errors", report.diagnostics.length)] ∧
        done.Shows [("tokens", report.tokenCount), ("statements", report.program.statements.length),
          ("diagnostics", report.diagnostics.length)]) ∧
      ((s.active env).minLevel = .debug →
        sent.countP (·.message = "Illegal character in source") =
          (if c.lexical.logIllegal then tokens.countP (·.kind = .illegal) else 0) ∧
        sent.countP (·.message = "Parsed statement") =
          if c.parser.traceStatements then report.program.statements.length else 0) := by
  obtain ⟨ls, laid⟩ := exists_laid there
  obtain ⟨report, events, processed, account⟩ :=
    exists_account (Limits.le_maxMessageLength admitted) c duration laid
  refine ⟨_, report, s.sent env events, tokenize_eq_ok_iff.mpr ⟨ls, _, laid, rfl⟩,
    fun service => ?_, ?_, ?_, ?_⟩
  · have some : events ≠ [] := by
      rintro rfl
      cases account.last
    rw [processText, processed]
    exact congrArg (fun t => Except.ok (report, t)) (noteAll_eq limits env rfl some)
  · exact account.sent_errors env s
  · refine ⟨_, _, _, account.sent_milestones env s, by simp, by simp, by simp,
      account.sent_last env s, ?_, ?_, ?_⟩
    · exact (Metrics.shows_note limits report.metrics).attach (by simp) env s
    · exact (Program.shows_note limits report.program report.diagnostics.length).attach
        (by simp) env s
    · exact (Report.shows_note limits duration report).attach (by simp) env s
  · intro debug
    rw [countP_sent env debug (by simp), countP_sent env debug (by simp)]
    exact ⟨account.illegal, account.parsed⟩

/-- An illegal character is remarked on, and the statement that starts with it is reported as an
error. -/
theorem sent_faithful_illegal :
    Build.development.limits.problem? "development" = none ∧
      Position.start.advanceAll "@ x".toList = .ok ⟨3, 1, 4⟩ ∧
      ∃ report sent, (∀ service, processText Build.development.limits {} (.ofEnvironment {})
        "0.00" "@ x".toList
            { preferences := some ⟨false, false, .debug, true⟩, service := some service } =
          .ok (report, deliverAll Build.development.limits service sent
            { preferences := some ⟨false, false, .debug, true⟩, service := some service })) ∧
        (sent.filter (·.level = .error)).map (·.code) = [.noOperand] ∧
        sent.countP (·.message = "Illegal character in source") = 1 := by
  have admitted : Build.development.limits.problem? "development" = none := by decide
  have there : Position.start.advanceAll "@ x".toList = .ok ⟨3, 1, 4⟩ := rfl
  obtain ⟨tokens, report, sent, tokenized, processed, errors, -, remarks⟩ :=
    sent_faithful admitted {} (.ofEnvironment {}) "0.00"
      { preferences := some ⟨false, false, .debug, true⟩ } there
  have one : (tokenize "@ x".toList).map (fun tokens => tokens.countP (·.kind = .illegal)) =
      .ok 1 := by
    decide +kernel
  have found : (processText Build.development.limits {} (.ofEnvironment {}) "0.00" "@ x".toList
        { preferences := some ⟨false, false, .debug, true⟩
          service := some ⟨.nowhere, .debug⟩ }).map
          (fun result => result.1.diagnostics.map (·.code)) = .ok [.noOperand] := by
    decide +kernel
  rw [tokenized] at one
  rw [processed ⟨.nowhere, .debug⟩] at found
  simp only [Except.map, Except.ok.injEq] at one found
  refine ⟨admitted, there, report, sent, processed, ?_, (remarks rfl).1.trans one⟩
  have codes := congrArg (List.map (fun (error : Code × Option Span × String) => error.1)) errors
  rw [if_pos (by decide), List.map_map, List.map_map] at codes
  exact codes.trans found

end Logging

end Frontend
