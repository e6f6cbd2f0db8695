import Frontend.Proofs.Parser.Run

/-!
# Parsers in lockstep

Two parsers on one text, under different preferences, count and report different things. In
everything else they agree: a step of the one is a step of the other, they fail together, and after
any number of steps they have kept the same statements and recorded the same diagnostics
(`after_plain`). Nothing that is counted by class or reported has a way back. What comes of a text
is what a parser at work has in the end, and it is reported in the order of its steps
(`exists_process_after`).
-/

set_option autoImplicit false

namespace Frontend

/-- A lexer without what is up to preferences. The number of all tokens is not. -/
def Lexer.plain (l : Lexer) : Lexer :=
  { l with
    preferences := { detailedMetrics := false, trackOperators := false, logIllegal := false }
    metrics := { total := l.metrics.total } }

theorem Lexer.plain_past (l : Lexer) (found : Lexeme) (rest : List Char) :
    (l.past found rest).plain = l.plain.past found rest := by
  simp only [plain, past, Metrics.total_record]
  rfl

theorem Lexer.next_plain (l : Lexer) :
    l.plain.next = l.next.map fun (found, after) => (found, after.plain) := by
  have same : scan l.plain.position l.plain.rest = scan l.position l.rest := rfl
  unfold next
  rw [same]
  cases scan l.position l.rest with
  | error fault => rfl
  | ok scanned =>
    cases scanned with
    | ended place => rfl
    | found lexeme rest =>
      exact congrArg (fun after => Except.ok (lexeme, after)) (l.plain_past lexeme rest).symm

namespace Parser.Machine

/-- A machine without what is up to preferences. -/
def plain (m : Machine) : Machine :=
  { m with cursor := { m.cursor with lexer := m.cursor.lexer.plain }, events := [] }

/-- Two machines differ at most in what is up to preferences. -/
def Agrees (m m' : Machine) : Prop := m.plain = m'.plain

theorem action_plain (limit : UInt64) (m : Machine) : m.plain.action limit = m.action limit := rfl

theorem perform_plain (limits : Limits) (preferences other : ParserPreferences) (m : Machine)
    (action : Action) :
    (m.plain.perform limits other action).map plain =
      (m.perform limits preferences action).map plain := by
  cases action with
  | take stage =>
    simp only [perform, plain, Lexer.next_plain]
    cases m.cursor.lexer.next <;> rfl
  | _ => rfl

theorem map_some_plain (found : Except Fault Machine) :
    (found.map some).map (Option.map plain) = (found.map plain).map some := by
  cases found <;> rfl

theorem step_plain (limits : Limits) (preferences other : ParserPreferences) (m : Machine) :
    (m.plain.step limits other).map (Option.map plain) =
      (m.step limits preferences).map (Option.map plain) := by
  unfold step
  rw [action_plain]
  cases m.action limits.maxParseDepth with
  | none => rfl
  | some action =>
    simp only [map_some_plain, perform_plain limits preferences other m action]

section

variable {limits : Limits} {preferences preferences' : ParserPreferences} {m m' n : Machine}

theorem Agrees.stage_eq (h : m.Agrees m') : m.stage = m'.stage := by
  change m.plain.stage = m'.plain.stage
  rw [h]

theorem Agrees.step (h : m.Agrees m') (preferences preferences' : ParserPreferences) :
    (m.step limits preferences).map (Option.map plain) =
      (m'.step limits preferences').map (Option.map plain) := by
  rw [← step_plain limits preferences preferences m, h,
    step_plain limits preferences' preferences m']

end

/-- What a parser on a lexer has come to after a number of steps. It may have failed, or be over. -/
def after (limits : Limits) (preferences : ParserPreferences) (lexer : Lexer) :
    Nat → Except Fault (Option Machine)
  | 0 => (start limits lexer).map some
  | k + 1 =>
    match after limits preferences lexer k with
    | .ok (some m) => m.step limits preferences
    | other => other

section

variable {limits : Limits} {preferences : ParserPreferences} {lexer : Lexer} {m n : Machine}

theorem start_plain (limits : Limits) (lexer : Lexer) :
    (start limits lexer.plain).map plain = (start limits lexer).map plain := by
  simp only [start, Lexer.next_plain]
  cases lexer.next with
  | error fault => rfl
  | ok found =>
    simp only [Except.map, Lexer.next_plain]
    cases found.2.next <;> rfl

theorem after_plain (limits : Limits) (preferences preferences' : ParserPreferences)
    {lexer lexer' : Lexer} (same : lexer.plain = lexer'.plain) (k : Nat) :
    (after limits preferences lexer k).map (Option.map plain) =
      (after limits preferences' lexer' k).map (Option.map plain) := by
  induction k with
  | zero =>
    rw [after, after, map_some_plain, map_some_plain, ← start_plain limits lexer, same,
      start_plain limits lexer']
  | succ k ih =>
    rw [after, after]
    generalize after limits preferences lexer k = reached at ih ⊢
    generalize after limits preferences' lexer' k = reached' at ih ⊢
    cases reached with
    | error fault =>
      cases reached' with
      | error fault' => exact ih
      | ok found => cases ih
    | ok found =>
      cases reached' with
      | error fault => cases ih
      | ok found' =>
        have same : found.map plain = found'.map plain := Except.ok.inj ih
        rcases found with _ | m <;> rcases found' with _ | m'
        · rfl
        · cases same
        · cases same
        · have agrees : m.Agrees m' := Option.some.inj same
          exact agrees.step preferences preferences'

theorem exists_after (started : start limits lexer = .ok m) (steps : Steps limits preferences m n) :
    ∃ k, after limits preferences lexer k = .ok (some n) := by
  induction steps with
  | refl => exact ⟨0, by rw [after, started]; rfl⟩
  | tail _ last ih =>
    obtain ⟨k, reached⟩ := ih
    exact ⟨k + 1, by rw [after, reached]; exact last⟩

theorem after_of_finished {k : Nat} (h : after limits preferences lexer k = .ok (some m))
    (ended : m.stage = .finished) (more : Nat) :
    after limits preferences lexer (k + 1 + more) = .ok none := by
  induction more with
  | zero =>
    rw [Nat.add_zero, after, h]
    simp only [step, action, ended]
  | succ more ih => rw [← Nat.add_assoc, after, ih]

/-- There is one machine in the end. -/
theorem after_finished_unique {k k' : Nat} (h : after limits preferences lexer k = .ok (some m))
    (ended : m.stage = .finished) (h' : after limits preferences lexer k' = .ok (some n))
    (ended' : n.stage = .finished) : m = n := by
  rcases Nat.lt_trichotomy k k' with before | rfl | before
  · obtain ⟨more, rfl⟩ := Nat.exists_eq_add_of_lt before
    rw [Nat.add_right_comm, after_of_finished h ended] at h'
    cases h'
  · exact Option.some.inj (Except.ok.inj (h.symm.trans h'))
  · obtain ⟨more, rfl⟩ := Nat.exists_eq_add_of_lt before
    rw [Nat.add_right_comm, after_of_finished h' ended'] at h
    cases h

/-- In the end two machines agree. -/
theorem agrees_of_finished {preferences' : ParserPreferences} {lexer' : Lexer} {k k' : Nat}
    (same : lexer.plain = lexer'.plain) (h : after limits preferences lexer k = .ok (some m))
    (ended : m.stage = .finished) (h' : after limits preferences' lexer' k' = .ok (some n))
    (ended' : n.stage = .finished) : m.Agrees n := by
  have both := after_plain limits preferences preferences' same k
  rw [h] at both
  cases reached : after limits preferences' lexer' k with
  | error fault =>
    rw [reached] at both
    cases both
  | ok found =>
    rw [reached] at both
    cases found with
    | none => cases both
    | some other =>
      have agrees : m.Agrees other := Option.some.inj (Except.ok.inj both)
      have stage : m.stage = other.stage := agrees.stage_eq
      obtain rfl := after_finished_unique reached (stage.symm.trans ended) h' ended'
      exact agrees

end

/-! ## Whole texts -/

/-- What has come of a text. -/
def report (text : List Char) (m : Machine) : Report where
  source := text
  program := ⟨m.statements⟩
  diagnostics := m.diagnostics
  metrics := m.cursor.lexer.metrics

/-- A text is processed to what a machine has in the end, and the events are those that it has
reported step by step, with one for the whole. -/
theorem exists_process_after (limits : Limits) (c : Preferences) (duration : String)
    {text : List Char} {ls : List Lexeme} {eof : Lexeme} (h : Laid .start text ls eof) :
    ∃ k last, after limits c.parser (.ofText c.lexical text) k = .ok (some last) ∧
      last.stage = .finished ∧ process limits c duration text =
        .ok (last.report text, last.events ++ [(last.report text).note limits duration]) := by
  have ready : (Lexer.ofText c.lexical text).Ready ls eof := ⟨h, fun ended => by cases ended⟩
  obtain ⟨m, last, parser, opening, pass, started, -, -, made, parsed, steps, finished, statements,
    diagnostics, events, metrics⟩ := exists_run limits c.parser ready
  obtain ⟨k, reached⟩ := exists_after started steps
  refine ⟨k, last, reached, finished, ?_⟩
  unfold process
  rw [made]
  change (parser.program limits >>= _) = _
  rw [parsed, events]
  simp only [report, statements, diagnostics, metrics]
  rfl

end Parser.Machine

end Frontend
