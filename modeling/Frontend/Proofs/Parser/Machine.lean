import Mathlib.Logic.Relation
import Frontend.Parser.Window
import Frontend.Proofs.Parser.Calls

/-!
# The parser as a machine

A parser has one lexeme in hand, sees one more, and takes the others from its lexer one at a time.
It keeps statements and records diagnostics as they come out, and whatever is reported is reported
at once. `Machine` is the parser between two of these things, and `Machine.step` does the next one.
What it is depends on the two lexemes and on how far the parser is (`Machine.action`); doing it
changes the rest (`Machine.perform`).

Every step records one thing or none (`step_records`), so a turn of the machine, which leads from
before one statement to before the next, keeps exactly one statement or records exactly one
diagnostic (`Turn.kept`).
-/

set_option autoImplicit false

namespace Frontend

namespace Parser

open Relation (ReflTransGen)

/-- A lexer with the lexeme that was taken from it last but one, and the last one. -/
structure Cursor where
  lexer : Lexer
  current : Lexeme
  peek : Lexeme

/-- How far the call in hand is. To chain on an operator is to open a level, to take the operator,
and to take what comes after it. At the nesting limit the rest of the statement is skipped. -/
inductive CallStage where
  | enter (call : Call)
  | operand (call : Call)
  | chain (call : Call) (left : Expr)
  | link (call : Call) (left : Expr)
  | right (call : Call) (left : Expr)
  | skip (call : Call)
  | leave (call : Call) (result : Option Expr)
  | done (result : Option Expr)

namespace Machine

/-- How far the parser is in the statement that starts with a lexeme. It may be before the first
one, and it is over after the last one. -/
inductive Stage where
  | between
  | name (first : Lexeme)
  | sign (first : Lexeme)
  | skip (first : Lexeme) (statement : Option (Span → Statement))
  | within (first : Lexeme) (waiting : List (Call × Waiting)) (stage : CallStage)
  | absorb (first : Lexeme) (result : Option Expr)
  | ended (result : Option Statement)
  | passed
  | finished

/-- What a step does besides going on to a stage: set the counter, take a lexeme, record a
diagnostic, keep a statement, or report that this is the end. -/
inductive Action where
  | go (stage : Stage) (depth : Nat)
  | take (stage : Stage)
  | record (diagnostic : Diagnostic) (stage : Stage)
  | keep (statement : Statement)
  | finish

end Machine

/-- The parser at work: what it reads, how deep it is in calls, what it has kept, recorded and
reported, and how far it is. -/
structure Machine where
  cursor : Cursor
  depth : Nat
  statements : List Statement
  diagnostics : List Diagnostic
  events : List Event
  stage : Machine.Stage

/-! ## What comes next -/

/-- Skipping stops at a semicolon and at the end. -/
def stopsSkipping (l : Lexeme) : Bool := l.kind = .semicolon || l.kind = .eof

namespace CallStage

open Machine (Action)

/-- What comes next in a call. -/
def action (limit : UInt64) (depth : Nat) (current peek first : Lexeme)
    (waiting : List (Call × Waiting)) : CallStage → Action
  | .enter call =>
    if depth < limit.toNat then
      .go (.within first waiting (.operand { call with opened := true })) (depth + 1)
    else .record (.tooDeep limit current.span) (.within first waiting (.skip call))
  | .operand call =>
    match current.kind with
    | .ident => .go (.within first waiting (.chain call (.identifier (nameOf current)))) depth
    | .int =>
      match Text.int64? current.literal.toList with
      | some value =>
        .go (.within first waiting (.chain call (.integer current.token value current.span))) depth
      | none =>
        .record (.integerRange current.literal current.span)
          (.within first waiting (.leave call none))
    | .bang | .minus =>
      .take (.within first ((call, .unary current) :: waiting) (.enter ⟨depth, .unary, false⟩))
    | kind => .record (.noOperand kind current.span) (.within first waiting (.leave call none))
  | .chain call left =>
    if call.least < peek.kind.precedence then
      if depth < limit.toNat then .go (.within first waiting (.link call left)) (depth + 1)
      else .record (.tooDeep limit peek.span) (.within first waiting (.skip call))
    else .go (.within first waiting (.leave call (some left))) depth
  | .link call left => .take (.within first waiting (.right call left))
  | .right call left =>
    .take (.within first ((call, .binary left current) :: waiting)
      (.enter ⟨depth, current.kind.precedence, false⟩))
  | .skip call =>
    if stopsSkipping current then .go (.within first waiting (.leave call none)) depth
    else .take (.within first waiting (.skip call))
  | .leave call result => .go (.within first waiting (.done result)) call.entry
  | .done result =>
    match waiting with
    | [] => .go (.absorb first result) depth
    | (caller, waits) :: waiting =>
      match result with
      | some e => .go (.within first waiting (.chain caller (waits.complete e))) depth
      | none => .go (.within first waiting (.leave caller none)) depth

end CallStage

namespace Machine

/-- A lexeme of a kind is taken if it is the one that is seen; if not, the statement is given up. -/
def expect (expected : Kind) (peek first : Lexeme) (stage : Stage) : Action :=
  if peek.kind = expected then .take stage
  else .record (.unexpectedToken expected peek.kind peek.span) (.skip first none)

/-- What comes next. There is nothing when the machine is over. -/
def action (limit : UInt64) (m : Machine) : Option Action :=
  let current := m.cursor.current
  let peek := m.cursor.peek
  match m.stage with
  | .between =>
    match current.kind with
    | .eof => some .finish
    | .letWord => some (.go (.name current) m.depth)
    | .returnWord => some (.take (.skip current (some (.giving current.token none))))
    | _ => some (.go (.within current [] (.enter ⟨m.depth, .lowest, false⟩)) m.depth)
  | .name first => some (expect .ident peek first (.sign first))
  | .sign first =>
    some (expect .assign peek first
      (.skip first (some (.binding first.token (nameOf current) none))))
  | .skip first statement =>
    if stopsSkipping current then
      some (.go (.ended (statement.map (· (first.span.merge current.span)))) m.depth)
    else some (.take (.skip first statement))
  | .within first waiting stage =>
    some (stage.action limit m.depth current peek first waiting)
  | .absorb first result =>
    if peek.kind = .semicolon then some (.take (.absorb first result))
    else
      some (.go (.ended (result.map fun e =>
        .expression first.token e (first.span.merge e.span))) m.depth)
  | .ended (some statement) => some (.keep statement)
  | .ended none => some (.go .passed m.depth)
  | .passed => some (.take .between)
  | .finished => none

/-- Does it. A lexeme, a diagnostic, a statement and the end are reported at once. -/
def perform (limits : Limits) (preferences : ParserPreferences) (m : Machine) :
    Action → Except Fault Machine
  | .go stage depth => .ok { m with stage := stage, depth := depth }
  | .take stage =>
    m.cursor.lexer.next.map fun (l, after) =>
      { m with
        cursor := ⟨after, m.cursor.peek, l⟩
        events := m.events ++ m.cursor.lexer.notes limits l
        stage := stage }
  | .record diagnostic stage =>
    .ok { m with
      diagnostics := m.diagnostics ++ [diagnostic]
      events := m.events ++ diagnostic.notes limits preferences
      stage := stage }
  | .keep statement =>
    .ok { m with
      statements := m.statements ++ [statement]
      events := m.events ++ statement.notes limits preferences
      stage := .passed }
  | .finish =>
    .ok { m with
      events := m.events ++ [(Program.mk m.statements).note limits m.diagnostics.length]
      stage := .finished }

/-- The next step, as long as there is one. -/
def step (limits : Limits) (preferences : ParserPreferences) (m : Machine) :
    Except Fault (Option Machine) :=
  match m.action limits.maxParseDepth with
  | none => .ok none
  | some action => (m.perform limits preferences action).map some

/-- The machine on a lexer, from which it takes two lexemes at once. -/
def start (limits : Limits) (lexer : Lexer) : Except Fault Machine :=
  match lexer.next with
  | .error fault => .error fault
  | .ok (first, after) =>
    after.next.map fun (second, last) =>
      { cursor := ⟨last, first, second⟩
        depth := 0
        statements := []
        diagnostics := []
        events := lexer.notes limits first ++ after.notes limits second
        stage := .between }

/-- Any number of steps. -/
abbrev Steps (limits : Limits) (preferences : ParserPreferences) : Machine → Machine → Prop :=
  ReflTransGen fun m n => m.step limits preferences = .ok (some n)

section

variable {limits : Limits} {preferences : ParserPreferences} {m n : Machine}

theorem start_eq {lexer after last : Lexer} {first second : Lexeme}
    (hfirst : lexer.next = .ok (first, after)) (hsecond : after.next = .ok (second, last)) :
    start limits lexer = .ok
      { cursor := ⟨last, first, second⟩
        depth := 0
        statements := []
        diagnostics := []
        events := lexer.notes limits first ++ after.notes limits second
        stage := .between } := by
  simp only [start, hfirst, hsecond]
  rfl

theorem quiet_start {lexer : Lexer} (h : start limits lexer = .ok m) :
    m.statements = [] ∧ m.diagnostics = [] := by
  unfold start at h
  cases first : lexer.next with
  | error fault =>
    rw [first] at h
    cases h
  | ok taken =>
    obtain ⟨l, after⟩ := taken
    simp only [first] at h
    cases second : after.next with
    | error fault =>
      rw [second] at h
      cases h
    | ok taken =>
      rw [second] at h
      cases h
      exact ⟨rfl, rfl⟩

theorem action_within {first : Lexeme} {waiting : List (Call × Waiting)} {stage : CallStage}
    (here : m.stage = .within first waiting stage) (limit : UInt64) :
    m.action limit =
      some (stage.action limit m.depth m.cursor.current m.cursor.peek first waiting) := by
  simp only [action, here]

theorem step_eq {action : Action} (h : m.action limits.maxParseDepth = some action) :
    m.step limits preferences = (m.perform limits preferences action).map some := by
  rw [step, h]

theorem step_go {stage : Stage} {depth : Nat}
    (h : m.action limits.maxParseDepth = some (.go stage depth)) :
    m.step limits preferences = .ok (some { m with stage := stage, depth := depth }) := step_eq h

theorem step_record {d : Diagnostic} {stage : Stage}
    (h : m.action limits.maxParseDepth = some (.record d stage)) :
    m.step limits preferences = .ok (some { m with
      diagnostics := m.diagnostics ++ [d]
      events := m.events ++ d.notes limits preferences
      stage := stage }) := step_eq h

theorem exists_perform (h : m.step limits preferences = .ok (some n)) :
    ∃ action, m.action limits.maxParseDepth = some action ∧
      m.perform limits preferences action = .ok n := by
  unfold step at h
  split at h
  · cases h
  · rename_i action next
    refine ⟨action, next, ?_⟩
    cases done : m.perform limits preferences action with
    | error fault =>
      rw [done] at h
      cases h
    | ok other =>
      rw [done] at h
      cases h
      rfl

end

end Machine

/-! ## What a step records -/

/-- Whether the call in hand is given up. -/
@[simp] def CallStage.settled : CallStage → Bool
  | .skip _ | .leave _ none | .done none => true
  | _ => false

namespace Machine

/-- Whether it has come out what becomes of the statement in hand. -/
@[simp] def Stage.settled : Stage → Bool
  | .skip _ none | .absorb _ none | .ended none | .passed => true
  | .within _ _ stage => stage.settled
  | _ => false

/-- Whether it is a stage of a statement. -/
@[simp] def Stage.inner : Stage → Bool
  | .between | .finished => false
  | _ => true

/-- What an action may do at a stage: a diagnostic is recorded and a statement is kept if nothing
has come out yet, and everything else leaves it as it is until the statement is over. -/
def Action.Fits (before : Stage) : Action → Prop
  | .go stage _ => stage.settled = before.settled ∧ stage.inner = true
  | .take stage =>
    stage.settled = before.settled ∧ stage.inner = true ∨ before = .passed ∧ stage = .between
  | .record _ stage => before.settled = false ∧ stage.settled = true ∧ stage.inner = true
  | .keep _ => before.settled = false
  | .finish => before = .between

theorem fits_call (limit : UInt64) (depth : Nat) (current peek first : Lexeme)
    (waiting : List (Call × Waiting)) (stage : CallStage) :
    (stage.action limit depth current peek first waiting).Fits (.within first waiting stage) := by
  cases stage with
  | enter call =>
    simp only [CallStage.action]
    split <;> simp [Action.Fits]
  | operand call =>
    simp only [CallStage.action]
    split
    case h_2 => split <;> simp [Action.Fits]
    all_goals simp [Action.Fits]
  | chain call left =>
    simp only [CallStage.action]
    split
    · split <;> simp [Action.Fits]
    · simp [Action.Fits]
  | link call left =>
    simp [CallStage.action, Action.Fits]
  | right call left =>
    simp [CallStage.action, Action.Fits]
  | skip call =>
    simp only [CallStage.action]
    split <;> simp [Action.Fits]
  | leave call result =>
    cases result <;> simp [CallStage.action, Action.Fits]
  | done result =>
    rcases waiting with _ | ⟨⟨caller, waits⟩, waiting⟩ <;> cases result <;>
      simp [CallStage.action, Action.Fits]

theorem action_fits {limit : UInt64} {m : Machine} {action : Action}
    (h : m.action limit = some action) : action.Fits m.stage := by
  obtain ⟨cursor, depth, statements, diagnostics, events, stage⟩ := m
  cases stage with
  | between =>
    simp only [Machine.action] at h
    split at h <;> cases h <;> simp [Action.Fits]
  | name first =>
    cases h
    unfold expect
    split <;> simp [Action.Fits]
  | sign first =>
    cases h
    unfold expect
    split <;> simp [Action.Fits]
  | skip first statement =>
    simp only [Machine.action] at h
    split at h <;> cases h <;> cases statement <;> simp [Action.Fits]
  | within first waiting stage =>
    cases h
    exact fits_call limit depth cursor.current cursor.peek first waiting stage
  | absorb first result =>
    simp only [Machine.action] at h
    split at h <;> cases h <;> cases result <;> simp [Action.Fits]
  | ended result => cases result <;> cases h <;> simp [Action.Fits]
  | passed =>
    cases h
    exact .inr ⟨rfl, rfl⟩
  | finished => cases h

/-- From one machine to another one statement is kept and no diagnostic recorded, or the other way
round. -/
def Kept (m n : Machine) : Prop :=
  (∃ s, n.statements = m.statements ++ [s] ∧ n.diagnostics = m.diagnostics) ∨
    ∃ d, n.statements = m.statements ∧ n.diagnostics = m.diagnostics ++ [d]

/-- From one machine to another nothing is kept or recorded. -/
def Quiet (m n : Machine) : Prop := n.statements = m.statements ∧ n.diagnostics = m.diagnostics

section

variable {limits : Limits} {preferences : ParserPreferences} {m n : Machine}

theorem quiet_take {stage : Stage} (h : m.perform limits preferences (.take stage) = .ok n) :
    m.Quiet n ∧ n.stage = stage := by
  unfold perform at h
  cases taken : m.cursor.lexer.next with
  | error fault =>
    rw [taken] at h
    cases h
  | ok found =>
    rw [taken] at h
    cases h
    exact ⟨⟨rfl, rfl⟩, rfl⟩

/-- A step inside a statement records nothing, and what has come out stays as it is, or it is the
step with which one thing comes out. -/
theorem step_records (h : m.step limits preferences = .ok (some n)) (inner : n.stage.inner = true) :
    (m.Quiet n ∧ n.stage.settled = m.stage.settled) ∨
      (m.Kept n ∧ m.stage.settled = false ∧ n.stage.settled = true) := by
  obtain ⟨action, next, done⟩ := exists_perform h
  have fits := action_fits next
  cases action with
  | go stage depth =>
    cases done
    exact .inl ⟨⟨rfl, rfl⟩, fits.1⟩
  | take stage =>
    obtain ⟨quiet, rfl⟩ := quiet_take done
    rcases fits with ⟨same, -⟩ | ⟨-, before⟩
    · exact .inl ⟨quiet, same⟩
    · rw [before] at inner
      cases inner
  | record d stage =>
    cases done
    exact .inr ⟨.inr ⟨d, rfl, rfl⟩, fits.1, fits.2.1⟩
  | keep s =>
    cases done
    exact .inr ⟨.inl ⟨s, rfl, rfl⟩, fits, rfl⟩
  | finish =>
    cases done
    cases inner

/-- A step that leaves a statement comes before the next one, or it is the last one of all. -/
theorem step_outer (h : m.step limits preferences = .ok (some n)) (outer : n.stage.inner = false) :
    (m.Quiet n ∧ m.stage = .passed ∧ n.stage = .between) ∨
      (m.Quiet n ∧ m.stage = .between ∧ n.stage = .finished) := by
  obtain ⟨action, next, done⟩ := exists_perform h
  have fits := action_fits next
  cases action with
  | go stage depth =>
    cases done
    cases outer.symm.trans fits.2
  | take stage =>
    obtain ⟨quiet, rfl⟩ := quiet_take done
    rcases fits with ⟨-, inner⟩ | ⟨passed, between⟩
    · cases outer.symm.trans inner
    · exact .inl ⟨quiet, passed, between⟩
  | record d stage =>
    cases done
    cases outer.symm.trans fits.2.2
  | keep s =>
    cases done
    cases outer
  | finish =>
    cases done
    exact .inr ⟨⟨rfl, rfl⟩, fits, rfl⟩

/-! ## Turns -/

/-- Any number of steps in a statement. -/
abbrev Inside (limits : Limits) (preferences : ParserPreferences) : Machine → Machine → Prop :=
  ReflTransGen fun m n => m.step limits preferences = .ok (some n) ∧ n.stage.inner = true

/-- All steps from before a statement to before the next one, or to where the next one would be. -/
structure Turn (limits : Limits) (preferences : ParserPreferences) (m n : Machine) : Prop where
  before : m.stage = .between
  inside : ∃ last, Inside limits preferences m last ∧ last.step limits preferences = .ok (some n)
  after : n.stage = .between

theorem Inside.kept (h : Inside limits preferences m n) (before : m.stage = .between) :
    (m.Quiet n ∧ n.stage.settled = false) ∨ (m.Kept n ∧ n.stage.settled = true) := by
  induction h with
  | refl => exact .inl ⟨⟨rfl, rfl⟩, by rw [before]; rfl⟩
  | tail _ last ih =>
    -- after the one thing has come out, no other step can be the one with which it comes out
    rcases step_records last.1 last.2 with ⟨⟨hs, hd⟩, same⟩ | ⟨kept, nothing, out⟩
    · unfold Quiet Kept at ih ⊢
      rw [hs, hd, same]
      exact ih
    · rcases ih with ⟨⟨hs, hd⟩, -⟩ | ⟨-, already⟩
      · unfold Kept at kept ⊢
        rw [hs, hd] at kept
        exact .inr ⟨kept, out⟩
      · cases nothing.symm.trans already

/-- A turn keeps one statement or records one diagnostic, and never both. -/
theorem Turn.kept (h : Turn limits preferences m n) : m.Kept n := by
  obtain ⟨before, ⟨last, inside, final⟩, after⟩ := h
  rcases step_outer final (by rw [after]; rfl) with ⟨⟨hs, hd⟩, passed, -⟩ | ⟨-, -, finished⟩
  · rcases inside.kept before with ⟨-, nothing⟩ | ⟨kept, -⟩
    · rw [passed] at nothing
      cases nothing
    · unfold Kept
      rw [hs, hd]
      exact kept
  · cases after.symm.trans finished

/-- A number of turns in a row. -/
def Turns (limits : Limits) (preferences : ParserPreferences) : Nat → Machine → Machine → Prop
  | 0, m, n => m = n
  | k + 1, m, n => ∃ next, Turn limits preferences m next ∧ Turns limits preferences k next n

theorem Turns.count {k : Nat} (h : Turns limits preferences k m n) :
    n.statements.length + n.diagnostics.length =
      m.statements.length + m.diagnostics.length + k := by
  induction k generalizing m with
  | zero => rw [show m = n from h, Nat.add_zero]
  | succ k ih =>
    obtain ⟨next, first, others⟩ := h
    rw [ih others]
    rcases first.kept with ⟨s, hs, hd⟩ | ⟨d, hs, hd⟩
    · rw [hs, hd, List.length_append, List.length_singleton]
      omega
    · rw [hs, hd, List.length_append, List.length_singleton]
      omega

theorem eq_of_finished (ended : m.stage = .finished) (steps : Steps limits preferences m n) :
    n = m := by
  rcases steps.cases_head with same | ⟨next, first, -⟩
  · exact same.symm
  · have none : m.step limits preferences = .ok none := by
      simp only [step, action, ended]
    cases none.symm.trans first

/-- From a machine some turns lead to the last step of all. -/
def Ends (limits : Limits) (preferences : ParserPreferences) (m n : Machine) : Prop :=
  ∃ k last, Turns limits preferences k m last ∧ last.step limits preferences = .ok (some n)

theorem Turn.ends {next : Machine} (h : Turn limits preferences m next)
    (ends : Ends limits preferences next n) : Ends limits preferences m n := by
  obtain ⟨k, last, turns, final⟩ := ends
  exact ⟨k + 1, last, ⟨next, h, turns⟩, final⟩

/-- What leads from before a statement to the end is a number of turns, and one step more. -/
theorem ends_of_steps (steps : Steps limits preferences m n) (ended : n.stage = .finished) :
    (m.stage = .between → Ends limits preferences m n) ∧
      ∀ start, start.stage = .between → Inside limits preferences start m → m.stage.inner = true →
        Ends limits preferences start n := by
  induction steps using ReflTransGen.head_induction_on with
  | refl =>
    rw [ended]
    constructor
    · intro before
      cases before
    · intro _ _ _ inner
      cases inner
  | @head m next first others ih =>
    cases inner : next.stage.inner with
    | true =>
      have one : Inside limits preferences m next := ReflTransGen.single ⟨first, inner⟩
      constructor
      · intro before
        exact ih.2 m before one inner
      · intro start before inside _
        exact ih.2 start before (inside.trans one) inner
    | false =>
      rcases step_outer first inner with ⟨-, passed, between⟩ | ⟨-, before, finished⟩
      · constructor
        · intro before
          rw [passed] at before
          cases before
        · intro start before inside _
          exact Turn.ends ⟨before, ⟨m, inside, first⟩, between⟩ (ih.1 between)
      · obtain rfl := eq_of_finished finished others
        constructor
        · exact fun _ => ⟨0, m, rfl, first⟩
        · intro start _ _ inner
          rw [before] at inner
          cases inner

end

end Machine

end Parser

end Frontend
