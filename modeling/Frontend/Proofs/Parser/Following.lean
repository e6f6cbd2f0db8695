import Frontend.Proofs.Parser.Cursor

/-!
# Calls of the parser at work

In an expression, the machine does what the calls of the expression parser do, and keeps account of
it on the way. `Setting.Follows` says where it is when the calls are somewhere, and each step of the
calls is matched by steps of the machine (`Follows.step`). When a call is given up, one diagnostic
has been recorded since the statement was begun (`Setting.Failed`), and otherwise nothing has
(`Setting.Clean`).
-/

set_option autoImplicit false

namespace Frontend.Parser

/-! ## Since a statement was begun -/

namespace Setting

open Machine (Steps)

variable {σ : Setting} {b m : Machine} {ls₀ ls ls' : List Lexeme}

/-- Since a machine came before a statement, lexemes were taken and nothing else happened. -/
structure Clean (σ : Setting) (b m : Machine) (ls₀ ls : List Lexeme) : Prop where
  suffix : ls <:+ ls₀
  quiet : b.Quiet m
  events : m.events = b.events ++ σ.handed ls₀ ls

/-- Since a machine came before a statement, a diagnostic was recorded when some lexemes were ahead,
and apart from that lexemes were taken. -/
structure Failed (σ : Setting) (d : Diagnostic) (ahead : Nat) (b m : Machine)
    (ls₀ ls : List Lexeme) : Prop where
  statements : m.statements = b.statements
  diagnostics : m.diagnostics = b.diagnostics ++ [d]
  events : ∃ there, ls <:+ there ∧ there <:+ ls₀ ∧ ahead = there.length - 1 ∧
    m.events = b.events ++ σ.handed ls₀ there ++ d.notes σ.limits σ.preferences ++
      σ.handed there ls

theorem Clean.moved (h : σ.Clean b m ls₀ ls) (suffix : ls' <:+ ls) (cursor : Cursor)
    (stage : Machine.Stage) : σ.Clean b (m.moved cursor (σ.handed ls ls') stage) ls₀ ls' where
  suffix := suffix.trans h.suffix
  quiet := h.quiet
  events := by
    rw [← σ.handed_trans h.suffix suffix, ← List.append_assoc, ← h.events]
    rfl

theorem Failed.moved {d : Diagnostic} {ahead : Nat} (h : σ.Failed d ahead b m ls₀ ls)
    (suffix : ls' <:+ ls) (cursor : Cursor) (stage : Machine.Stage) :
    σ.Failed d ahead b (m.moved cursor (σ.handed ls ls') stage) ls₀ ls' where
  statements := h.statements
  diagnostics := h.diagnostics
  events := by
    obtain ⟨there, before, after, count, events⟩ := h.events
    refine ⟨there, suffix.trans before, after, count, ?_⟩
    rw [← σ.handed_trans before suffix, ← List.append_assoc, ← events]
    rfl

theorem Clean.goes (h : σ.Clean b m ls₀ ls) (stage : Machine.Stage) (depth : Nat) :
    σ.Clean b { m with stage := stage, depth := depth } ls₀ ls :=
  ⟨h.suffix, h.quiet, h.events⟩

theorem Failed.goes {d : Diagnostic} {ahead : Nat} (h : σ.Failed d ahead b m ls₀ ls)
    (stage : Machine.Stage) (depth : Nat) :
    σ.Failed d ahead b { m with stage := stage, depth := depth } ls₀ ls :=
  ⟨h.statements, h.diagnostics, h.events⟩

/-- The machine when it has recorded a diagnostic. -/
def recorded (σ : Setting) (m : Machine) (d : Diagnostic) (stage : Machine.Stage) : Machine :=
  { m with
    diagnostics := m.diagnostics ++ [d]
    events := m.events ++ d.notes σ.limits σ.preferences
    stage := stage }

theorem Clean.recorded (h : σ.Clean b m ls₀ ls) (d : Diagnostic) (stage : Machine.Stage) :
    σ.Failed d (ls.length - 1) b (σ.recorded m d stage) ls₀ ls where
  statements := h.quiet.1
  diagnostics := congrArg (· ++ [d]) h.quiet.2
  events := by
    refine ⟨ls, List.suffix_rfl, h.suffix, rfl, ?_⟩
    rw [σ.handed_self, List.append_nil, ← h.events]
    rfl

/-- What is handed on of a result. -/
def found : Attempt Expr → Option Expr
  | .ok (e, _) => some e
  | .error _ => none

/-- An attempt has had this result, and it was recorded if it has failed. -/
def Comes (σ : Setting) (b m : Machine) (ls₀ ls : List Lexeme) : Attempt Expr → Prop
  | .ok (_, rest) =>
    ls.tail = rest ∧ (ls.headD σ.eof).kind ≠ .semicolon ∧ σ.Clean b m ls₀ ls
  | .error rejection =>
    ls.tail = rejection.rest ∧ σ.Failed rejection.diagnostic rejection.ahead b m ls₀ ls

/-- The machine is in the stage of a call that is given by the lexemes ahead. -/
def InStage (σ : Setting) (b m : Machine) (ls₀ ls : List Lexeme) (first : Lexeme)
    (waiting : List (Call × Waiting)) : Parser.Stage → Prop
  | .enter call lexemes =>
    lexemes = ls ∧ m.stage = .within first waiting (.enter call) ∧ σ.Clean b m ls₀ ls
  | .operand call lexemes =>
    lexemes = ls ∧ m.stage = .within first waiting (.operand call) ∧ σ.Clean b m ls₀ ls
  | .chain call left lexemes =>
    lexemes = ls.tail ∧ (ls.headD σ.eof).kind ≠ .semicolon ∧
      m.stage = .within first waiting (.chain call left) ∧ σ.Clean b m ls₀ ls
  | .leave call result =>
    m.stage = .within first waiting (.leave call (found result)) ∧ σ.Comes b m ls₀ ls result
  | .done result =>
    m.stage = .within first waiting (.done (found result)) ∧ σ.Comes b m ls₀ ls result

/-- The machine follows the calls in a statement. -/
def Follows (σ : Setting) (b : Machine) (ls₀ : List Lexeme) (first : Lexeme) (c : Calls)
    (m : Machine) : Prop :=
  ∃ ls, σ.Reads m.cursor ls ∧ m.depth = c.depth ∧ σ.InStage b m ls₀ ls first c.waiting c.stage

section

variable {first : Lexeme} {call : Call} {waiting : List (Call × Waiting)}

/-- A call is given up at the nesting limit, and the rest of the statement is skipped. -/
theorem Clean.exists_tooDeep {span : Span} (h : σ.Clean b m ls₀ ls) (reads : σ.Reads m.cursor ls)
    (next : m.action σ.limits.maxParseDepth =
      some (.record (.tooDeep σ.limits.maxParseDepth span) (.within first waiting (.skip call)))) :
    ∃ n, Steps σ.limits σ.preferences m n ∧ σ.Reads n.cursor (toSemicolon ls) ∧
      n.depth = m.depth ∧ n.stage = .within first waiting (.leave call none) ∧
      σ.Failed (.tooDeep σ.limits.maxParseDepth span) (ls.length - 1) b n ls₀ (toSemicolon ls) := by
  let skipping : Machine.Stage := .within first waiting (.skip call)
  let given := σ.recorded m (.tooDeep σ.limits.maxParseDepth span) skipping
  have failed : σ.Failed _ _ b given ls₀ ls := h.recorded _ skipping
  have loops : ∀ n : Machine, n.stage = skipping → stopsSkipping n.cursor.current = false →
      n.action σ.limits.maxParseDepth = some (.take skipping) := by
    intro n here onwards
    simp only [Machine.action_within here, CallStage.action, onwards, Bool.false_eq_true, if_false,
      skipping]
  obtain ⟨cursor, reads', skipped⟩ := Reads.exists_skip (m := given) reads rfl loops
  have stop : stopsSkipping cursor.current = true := by
    rw [reads'.current]
    exact stopsSkipping_toSemicolon reads.eof_kind ls
  have left : (given.moved cursor (σ.handed ls (toSemicolon ls)) skipping).action
      σ.limits.maxParseDepth = some (.go (.within first waiting (.leave call none)) m.depth) :=
    congrArg some (if_pos stop)
  exact ⟨_, .head (Machine.step_record next) (skipped.trans (.single (Machine.step_go left))),
    reads', rfl, rfl, failed.moved (toSemicolon_suffix ls) cursor _⟩

end

/-! ## Calls -/

section

variable {first : Lexeme} {call : Call} {waiting : List (Call × Waiting)} {depth : Nat} {d : Calls}

theorem Follows.step_enter {lexemes : List Lexeme}
    (h : σ.Follows b ls₀ first ⟨.enter call lexemes, waiting, depth⟩ m)
    (next : Calls.step σ.limits.maxParseDepth σ.eof
      ⟨.enter call lexemes, waiting, depth⟩ = some d) :
    ∃ n, Steps σ.limits σ.preferences m n ∧ σ.Follows b ls₀ first d n := by
  obtain ⟨ls, reads, rfl, rfl, here, clean⟩ := h
  have action := Machine.action_within here σ.limits.maxParseDepth
  by_cases room : m.depth < σ.limits.maxParseDepth.toNat
  · rw [Calls.enter_step room] at next
    cases next
    rw [CallStage.action, if_pos room] at action
    exact ⟨_, .single (Machine.step_go action), lexemes, reads, rfl, rfl, rfl, clean.goes _ _⟩
  · rw [Calls.enter_step_full room] at next
    cases next
    rw [CallStage.action, if_neg room, reads.current] at action
    obtain ⟨n, steps, reads, depth, here, failed⟩ := clean.exists_tooDeep reads action
    exact ⟨n, steps, _, reads, depth, here, rfl, failed⟩

/-- An operand is missing or out of range. The lexeme in hand stays there. -/
theorem Follows.refuse {rejection : Rejection} (reads : σ.Reads m.cursor ls)
    (clean : σ.Clean b m ls₀ ls) (ahead : rejection.ahead = ls.length - 1)
    (rest : rejection.rest = ls.tail)
    (action : m.action σ.limits.maxParseDepth =
      some (.record rejection.diagnostic (.within first waiting (.leave call none)))) :
    ∃ n, Steps σ.limits σ.preferences m n ∧
      σ.Follows b ls₀ first ⟨.leave call (.error rejection), waiting, m.depth⟩ n := by
  have failed := clean.recorded rejection.diagnostic (.within first waiting (.leave call none))
  rw [← ahead] at failed
  exact ⟨_, .single (Machine.step_record action), ls, reads, rfl, rfl, rest.symm, failed⟩

theorem Follows.step_operand {lexemes : List Lexeme}
    (h : σ.Follows b ls₀ first ⟨.operand call lexemes, waiting, depth⟩ m)
    (next : Calls.step σ.limits.maxParseDepth σ.eof
      ⟨.operand call lexemes, waiting, depth⟩ = some d) :
    ∃ n, Steps σ.limits σ.preferences m n ∧ σ.Follows b ls₀ first d n := by
  obtain ⟨ls, reads, rfl, rfl, here, clean⟩ := h
  have action := Machine.action_within here σ.limits.maxParseDepth
  rw [reads.current] at action
  cases lexemes with
  | nil =>
    cases next
    refine Follows.refuse reads clean rfl rfl ?_
    rw [action, List.headD_nil, CallStage.action, reads.eof_kind]
  | cons l rest =>
    rw [List.headD_cons, CallStage.action] at action
    cases kind : l.kind
    case ident =>
      simp only [Calls.step, kind, Option.some.injEq] at next
      subst next
      rw [kind] at action
      have inside : l.kind ≠ .semicolon := by simp [kind]
      exact ⟨_, .single (Machine.step_go action), l :: rest, reads, rfl, rfl, inside, rfl,
        clean.goes _ _⟩
    case int =>
      rw [kind] at action
      have inside : l.kind ≠ .semicolon := by simp [kind]
      cases value : Text.int64? l.literal.toList with
      | some value =>
        simp only [Calls.step, kind, value, Option.some.injEq] at next
        subst next
        simp only [value] at action
        exact ⟨_, .single (Machine.step_go action), l :: rest, reads, rfl, rfl, inside, rfl,
          clean.goes _ _⟩
      | none =>
        simp only [Calls.step, kind, value, Option.some.injEq] at next
        subst next
        simp only [value] at action
        exact Follows.refuse reads clean rfl rfl action
    case bang | minus =>
      simp only [Calls.step, kind, Option.some.injEq] at next
      subst next
      rw [kind] at action
      obtain ⟨cursor, reads', taken⟩ := reads.exists_take action
      exact ⟨_, .single taken, rest, reads', rfl, rfl, rfl,
        clean.moved (List.suffix_cons l rest) cursor _⟩
    all_goals
      simp only [Calls.step, kind, Option.some.injEq] at next
      subst next
      rw [kind] at action
      exact Follows.refuse reads clean rfl rfl action

/-- An operator is chained on: its level is opened, it is taken, and what comes after it. -/
theorem Clean.exists_link {left : Expr} (h : σ.Clean b m ls₀ ls) (reads : σ.Reads m.cursor ls)
    (next : m.action σ.limits.maxParseDepth =
      some (.go (.within first waiting (.link call left)) (m.depth + 1))) :
    ∃ n, Steps σ.limits σ.preferences m n ∧ σ.Reads n.cursor ls.tail.tail ∧
      n.depth = m.depth + 1 ∧
      n.stage = .within first ((call, .binary left (ls.tail.headD σ.eof)) :: waiting)
        (.enter ⟨m.depth + 1, (ls.tail.headD σ.eof).kind.precedence, false⟩) ∧
      σ.Clean b n ls₀ ls.tail.tail := by
  let link : Machine.Stage := .within first waiting (.link call left)
  let right : Machine.Stage := .within first waiting (.right call left)
  let opened : Machine := { m with stage := link, depth := m.depth + 1 }
  have take : opened.action σ.limits.maxParseDepth = some (.take right) := rfl
  obtain ⟨operator, reads', taken⟩ := Reads.exists_take (m := opened) reads take
  let between := opened.moved operator (σ.handed ls ls.tail) right
  have moved : σ.Clean b between ls₀ ls.tail :=
    (h.goes link _).moved (List.tail_suffix ls) operator right
  obtain ⟨cursor, reads'', taken'⟩ := Reads.exists_take (m := between) reads' rfl
  refine ⟨_, .head (Machine.step_go next) (.head taken (.single taken')), reads'', rfl, ?_,
    moved.moved (List.tail_suffix _) cursor _⟩
  rw [← reads'.current]
  rfl

theorem Follows.step_chain {left : Expr} {lexemes : List Lexeme}
    (h : σ.Follows b ls₀ first ⟨.chain call left lexemes, waiting, depth⟩ m)
    (next : Calls.step σ.limits.maxParseDepth σ.eof ⟨.chain call left lexemes, waiting, depth⟩ =
      some d) :
    ∃ n, Steps σ.limits σ.preferences m n ∧ σ.Follows b ls₀ first d n := by
  obtain ⟨ls, reads, rfl, rfl, inside, here, clean⟩ := h
  have action := Machine.action_within here σ.limits.maxParseDepth
  rw [CallStage.action, reads.peek] at action
  cases ahead : ls.tail with
  | nil =>
    rw [ahead] at next action
    cases next
    have loose : ¬call.least < σ.eof.kind.precedence := by
      rw [reads.eof_kind]
      exact Nat.not_lt_zero _
    rw [List.headD_nil, if_neg loose] at action
    exact ⟨_, .single (Machine.step_go action), ls, reads, rfl, rfl, ahead, inside,
      clean.goes _ _⟩
  | cons operator rest =>
    rw [ahead] at next action
    rw [List.headD_cons] at action
    by_cases binds : call.least < operator.kind.precedence
    · rw [if_pos binds] at action
      by_cases room : m.depth < σ.limits.maxParseDepth.toNat
      · rw [Calls.chain_step binds room] at next
        cases next
        rw [if_pos room] at action
        obtain ⟨n, steps, reads', depth, here, clean'⟩ := clean.exists_link reads action
        rw [ahead] at reads' here clean'
        exact ⟨n, steps, rest, reads', depth, rfl, here, clean'⟩
      · rw [Calls.chain_step_full binds room] at next
        cases next
        rw [if_neg room] at action
        obtain ⟨n, steps, reads', depth, left, failed⟩ := clean.exists_tooDeep reads action
        obtain ⟨current, rfl⟩ : ∃ current, ls = current :: operator :: rest := by
          cases ls with
          | nil => cases ahead
          | cons current rest' => exact ⟨current, congrArg (current :: ·) ahead⟩
        rw [toSemicolon_cons_of_ne (l := current) inside] at reads' failed
        exact ⟨n, steps, _, reads', depth, left, rfl, failed⟩
    · rw [Calls.chain_step_loose binds] at next
      cases next
      rw [if_neg binds] at action
      exact ⟨_, .single (Machine.step_go action), ls, reads, rfl, rfl, ahead, inside,
        clean.goes _ _⟩

theorem Follows.step_leave {result : Attempt Expr}
    (h : σ.Follows b ls₀ first ⟨.leave call result, waiting, depth⟩ m) :
    ∃ n, Steps σ.limits σ.preferences m n ∧
      σ.Follows b ls₀ first ⟨.done result, waiting, call.entry⟩ n := by
  obtain ⟨ls, reads, rfl, here, comes⟩ := h
  have action := Machine.action_within here σ.limits.maxParseDepth
  refine ⟨_, .single (Machine.step_go action), ls, reads, rfl, rfl, ?_⟩
  cases result with
  | ok found => exact ⟨comes.1, comes.2.1, comes.2.2.goes _ _⟩
  | error rejection => exact ⟨comes.1, comes.2.goes _ _⟩

theorem Follows.step_done {caller : Call} {waits : Waiting} {result : Attempt Expr}
    (h : σ.Follows b ls₀ first ⟨.done result, (caller, waits) :: waiting, depth⟩ m)
    (next : Calls.step σ.limits.maxParseDepth σ.eof
      ⟨.done result, (caller, waits) :: waiting, depth⟩ = some d) :
    ∃ n, Steps σ.limits σ.preferences m n ∧ σ.Follows b ls₀ first d n := by
  obtain ⟨ls, reads, rfl, here, comes⟩ := h
  have action := Machine.action_within here σ.limits.maxParseDepth
  cases result with
  | ok found =>
    cases next
    obtain ⟨rest, inside, clean⟩ := comes
    exact ⟨_, .single (Machine.step_go action), ls, reads, rfl, rest.symm, inside, rfl,
      clean.goes _ _⟩
  | error rejection =>
    cases next
    exact ⟨_, .single (Machine.step_go action), ls, reads, rfl, rfl, comes.1, comes.2.goes _ _⟩

/-- What the calls do next, the machine does as well. -/
theorem Follows.step {c : Calls} (h : σ.Follows b ls₀ first c m)
    (next : c.step σ.limits.maxParseDepth σ.eof = some d) :
    ∃ n, Steps σ.limits σ.preferences m n ∧ σ.Follows b ls₀ first d n := by
  obtain ⟨stage, waiting, depth⟩ := c
  cases stage with
  | enter call lexemes => exact h.step_enter next
  | operand call lexemes => exact h.step_operand next
  | chain call left lexemes => exact h.step_chain next
  | leave call result =>
    cases next
    exact h.step_leave
  | done result =>
    cases waiting with
    | nil => cases next
    | cons frame waiting => exact h.step_done next

theorem Follows.steps {c : Calls} (h : σ.Follows b ls₀ first c m)
    (steps : Calls.Steps σ.limits.maxParseDepth σ.eof c d) :
    ∃ n, Steps σ.limits σ.preferences m n ∧ σ.Follows b ls₀ first d n := by
  induction steps with
  | refl => exact ⟨m, .refl, h⟩
  | tail _ last ih =>
    obtain ⟨n, steps, follows⟩ := ih
    obtain ⟨n', steps', follows'⟩ := follows.step last
    exact ⟨n', steps.trans steps', follows'⟩

end

end Setting

end Frontend.Parser
