import Frontend.Proofs.Parser.Depth
import Frontend.Proofs.Parser.Following
import Frontend.Proofs.Timeline

/-!
# Runs of the parser

A machine that comes before a statement gets to its end with the item that `statement` gives
(`Reads.comesOut_statement`), and then comes before the next one (`Between.exists_next`). So on a
text it goes on until nothing is left, and then it has kept, recorded, counted and reported what
`Parser.program` gives (`exists_run`): the events that it has reported one by one are the timeline.
Each turn uses up lexemes (`Reads.exists_turn`).
-/

set_option autoImplicit false

namespace Frontend.Parser

/-! ## Statements -/

namespace Setting

open Machine (Steps)

variable {σ : Setting} {b m : Machine} {ls₀ ls : List Lexeme} {first : Lexeme}

/-- It has come out at some lexemes what becomes of a statement. -/
def Ends (σ : Setting) (b m : Machine) (ls₀ ls : List Lexeme) (item : Item) : Prop :=
  match item.outcome with
  | .accepted s => m.stage = .ended (some s) ∧ item.ahead = ls.length - 1 ∧ σ.Clean b m ls₀ ls
  | .rejected d => m.stage = .ended none ∧ σ.Failed d item.ahead b m ls₀ ls

/-- From a machine in a statement the end of it is reached with an item. The lexemes after the one
in hand are the given ones then. -/
def ComesOut (σ : Setting) (b m : Machine) (ls₀ : List Lexeme) (result : Item × List Lexeme) :
    Prop :=
  ∃ n ls, Steps σ.limits σ.preferences m n ∧ σ.Reads n.cursor ls ∧ n.depth = m.depth ∧
    ls.tail = result.2 ∧ σ.Ends b n ls₀ ls result.1

theorem ComesOut.of_steps {n : Machine} {result : Item × List Lexeme}
    (steps : Steps σ.limits σ.preferences m n) (depth : n.depth = m.depth)
    (h : σ.ComesOut b n ls₀ result) : σ.ComesOut b m ls₀ result := by
  obtain ⟨last, ls, others, reads, depth', left, ends⟩ := h
  exact ⟨last, ls, steps.trans others, reads, depth'.trans depth, left, ends⟩

/-- The rest of a statement is skipped. -/
theorem Reads.exists_skipped {statement : Option (Span → Statement)} (reads : σ.Reads m.cursor ls)
    (here : m.stage = .skip first statement) :
    ∃ cursor, σ.Reads cursor (toSemicolon ls) ∧ Steps σ.limits σ.preferences m
      (m.moved cursor (σ.handed ls (toSemicolon ls)) (.ended (statement.map
        (· (first.span.merge ((toSemicolon ls).headD σ.eof).span))))) := by
  have loops : ∀ n : Machine, n.stage = .skip first statement →
      stopsSkipping n.cursor.current = false →
      n.action σ.limits.maxParseDepth = some (.take (.skip first statement)) := by
    intro n here onwards
    simp only [Machine.action, here, onwards, Bool.false_eq_true, if_false]
  obtain ⟨cursor, reads', skipped⟩ := reads.exists_skip here loops
  have stop : stopsSkipping cursor.current = true := by
    rw [reads'.current]
    exact stopsSkipping_toSemicolon reads.eof_kind ls
  have left : (m.moved cursor (σ.handed ls (toSemicolon ls)) (.skip first statement)).action
      σ.limits.maxParseDepth =
        some (.go (.ended (statement.map (· (first.span.merge cursor.current.span)))) m.depth) :=
    if_pos stop
  rw [reads'.current] at left
  exact ⟨cursor, reads', skipped.trans (.single (Machine.step_go left))⟩

/-- The form of a statement is broken by the lexeme that is seen. -/
theorem Clean.comesOut_broken {current : Lexeme} {rest : List Lexeme} {expected : Kind}
    {stage : Machine.Stage} (h : σ.Clean b m ls₀ (current :: rest))
    (reads : σ.Reads m.cursor (current :: rest)) (inside : current.kind ≠ .semicolon)
    (next : m.action σ.limits.maxParseDepth =
      some (Machine.expect expected m.cursor.peek first stage))
    (other : (rest.headD σ.eof).kind ≠ expected) :
    σ.ComesOut b m ls₀ (broken σ.eof expected rest) := by
  have peek : m.cursor.peek = rest.headD σ.eof := reads.peek
  rw [peek, Machine.expect, if_neg other] at next
  let found := rest.headD σ.eof
  let given := σ.recorded m (.unexpectedToken expected found.kind found.span) (.skip first none)
  have failed : σ.Failed _ rest.length b given ls₀ (current :: rest) := h.recorded _ _
  obtain ⟨cursor, reads', skipped⟩ := Reads.exists_skipped (m := given) reads rfl
  refine ⟨_, _, .head (Machine.step_record next) skipped, reads', rfl, ?_, rfl,
    failed.moved (toSemicolon_suffix _) cursor _⟩
  rw [toSemicolon_cons_of_ne inside]
  rfl

/-- What is left of a statement does not matter. -/
theorem Clean.comesOut_skipped {statement : Span → Statement} {rest : List Lexeme}
    (h : σ.Clean b m ls₀ ls) (reads : σ.Reads m.cursor ls)
    (here : m.stage = .skip first (some statement)) (same : toSemicolon ls = toSemicolon rest) :
    σ.ComesOut b m ls₀ (skipped statement first σ.eof rest) := by
  obtain ⟨cursor, reads', skipped⟩ := reads.exists_skipped here
  rw [same] at reads' skipped
  refine ⟨_, _, skipped, reads', rfl, rfl, rfl, ?_, ?_⟩
  · exact List.length_tail
  · rw [← same]
    exact h.moved (toSemicolon_suffix ls) cursor _

/-- After the name, the sign has to come. -/
theorem Clean.comesOut_sign {name : Lexeme} {rest : List Lexeme}
    (h : σ.Clean b m ls₀ (name :: rest)) (reads : σ.Reads m.cursor (name :: rest))
    (here : m.stage = .sign first) (kind : name.kind = .ident) :
    σ.ComesOut b m ls₀ (bindingAfter first σ.eof (name :: rest)) := by
  have inside : name.kind ≠ .semicolon := by simp [kind]
  have action : m.action σ.limits.maxParseDepth = some (Machine.expect .assign m.cursor.peek first
      (.skip first (some (.binding first.token (nameOf m.cursor.current) none)))) := by
    simp only [Machine.action, here]
  have broken (other : (rest.headD σ.eof).kind ≠ .assign) :=
    h.comesOut_broken reads inside action other
  cases rest with
  | nil =>
    simp only [bindingAfter, kind, if_true]
    exact broken (by simp [reads.eof_kind])
  | cons sign rest =>
    simp only [bindingAfter, kind, if_true]
    by_cases assign : sign.kind = .assign
    · rw [reads.peek, Machine.expect, if_pos (by exact assign), reads.current] at action
      obtain ⟨cursor, reads', taken⟩ := reads.exists_take action
      have same : toSemicolon (sign :: rest) = toSemicolon rest :=
        toSemicolon_cons_of_ne (by simp [assign]) rest
      have moved := h.moved (List.suffix_cons name (sign :: rest)) cursor
        (.skip first (some (.binding first.token (nameOf name) none)))
      rw [if_pos assign]
      exact (moved.comesOut_skipped reads' rfl same).of_steps (.single taken) rfl
    · rw [if_neg assign]
      exact broken assign

theorem Clean.comesOut_bindingAfter {rest : List Lexeme} (h : σ.Clean b m ls₀ (first :: rest))
    (reads : σ.Reads m.cursor (first :: rest)) (here : m.stage = .name first)
    (kind : first.kind = .letWord) : σ.ComesOut b m ls₀ (bindingAfter first σ.eof rest) := by
  have inside : first.kind ≠ .semicolon := by simp [kind]
  have action : m.action σ.limits.maxParseDepth =
      some (Machine.expect .ident m.cursor.peek first (.sign first)) := by
    simp only [Machine.action, here]
  have broken (other : (rest.headD σ.eof).kind ≠ .ident) :=
    h.comesOut_broken reads inside action other
  cases rest with
  | nil => exact broken (by simp [reads.eof_kind])
  | cons name rest =>
    by_cases ident : name.kind = .ident
    · rw [reads.peek, Machine.expect, if_pos (by exact ident)] at action
      obtain ⟨cursor, reads', taken⟩ := reads.exists_take action
      have moved := h.moved (List.suffix_cons first (name :: rest)) cursor (.sign first)
      exact (moved.comesOut_sign reads' rfl ident).of_steps (.single taken) rfl
    · simp only [bindingAfter, ident, if_false]
      exact broken ident

theorem headD_dropWhile_ne (ending : σ.eof.kind = .eof) (ls : List Lexeme) :
    ((ls.dropWhile (·.kind = .semicolon)).headD σ.eof).kind ≠ .semicolon := by
  induction ls with
  | nil => simp [ending]
  | cons l rest ih =>
    by_cases semicolon : l.kind = .semicolon
    · rw [List.dropWhile_cons_of_pos (by simp [semicolon])]
      exact ih
    · rw [List.dropWhile_cons_of_neg (by simp [semicolon])]
      exact semicolon

/-- An expression is over, and the semicolons after it are taken. -/
theorem Follows.comesOut_concluded {result : Attempt Expr} {depth : Nat}
    (h : σ.Follows b ls₀ first ⟨.done result, [], depth⟩ m) :
    σ.ComesOut b m ls₀ (concluded first result) := by
  obtain ⟨ls, reads, rfl, here, comes⟩ := h
  have action : m.action σ.limits.maxParseDepth =
      some (.go (.absorb first (found result)) m.depth) :=
    Machine.action_within here _
  let absorbing : Machine := { m with stage := .absorb first (found result), depth := m.depth }
  obtain ⟨cursor, ls', reads', suffix, tail, taken⟩ :=
    Reads.exists_absorb (m := absorbing) reads rfl
  have other : cursor.peek.kind ≠ .semicolon := by
    rw [reads'.peek, tail]
    exact headD_dropWhile_ne reads.eof_kind _
  let last := absorbing.moved cursor (σ.handed ls ls') (.absorb first (found result))
  have ended : last.action σ.limits.maxParseDepth = some (.go (.ended ((found result).map fun e =>
      .expression first.token e (first.span.merge e.span))) m.depth) := if_neg other
  have steps : Steps σ.limits σ.preferences m _ :=
    .head (Machine.step_go action) (taken.trans (.single (Machine.step_go ended)))
  refine ⟨_, ls', steps, reads', rfl, ?_, ?_⟩
  · cases result with
    | ok found => rw [tail, comes.1]; rfl
    | error rejection => rw [tail, comes.1]; rfl
  · cases result with
    | ok found =>
      have count : (found.2.dropWhile (·.kind = .semicolon)).length = ls'.length - 1 := by
        rw [← comes.1, ← tail, List.length_tail]
      exact ⟨rfl, count, ((comes.2.2.goes _ _).moved suffix cursor _).goes _ _⟩
    | error rejection => exact ⟨rfl, ((comes.2.goes _ _).moved suffix cursor _).goes _ _⟩

theorem Clean.refl (m : Machine) (ls : List Lexeme) : σ.Clean m m ls ls where
  suffix := List.suffix_rfl
  quiet := ⟨rfl, rfl⟩
  events := by rw [σ.handed_self, List.append_nil]

/-- From before a statement the machine gets to its end. -/
theorem Reads.comesOut_statement {rest : List Lexeme} (reads : σ.Reads m.cursor (first :: rest))
    (here : m.stage = .between) (level : m.depth = 0) :
    σ.ComesOut m m (first :: rest) (statement σ.limits.maxParseDepth σ.eof first rest) := by
  have kind : first.kind ≠ .eof := reads.kinds first List.mem_cons_self
  have clean := Clean.refl (σ := σ) m (first :: rest)
  have current : m.cursor.current = first := reads.current
  unfold statement
  split
  · rename_i binding
    have action : m.action σ.limits.maxParseDepth = some (.go (.name first) m.depth) := by
      simp only [Machine.action, here, current, binding]
    exact ((clean.goes (.name first) m.depth).comesOut_bindingAfter reads rfl binding).of_steps
      (.single (Machine.step_go action)) rfl
  · rename_i giving
    have action : m.action σ.limits.maxParseDepth =
        some (.take (.skip first (some (.giving first.token none)))) := by
      simp only [Machine.action, here, current, giving]
    obtain ⟨cursor, reads', taken⟩ := reads.exists_take action
    have moved := clean.moved (List.suffix_cons first rest) cursor
      (.skip first (some (.giving first.token none)))
    exact (moved.comesOut_skipped reads' rfl rfl).of_steps (.single taken) rfl
  · rename_i binding giving
    have action : m.action σ.limits.maxParseDepth =
        some (.go (.within first [] (.enter ⟨0, .lowest, false⟩)) 0) := by
      simp only [Machine.action, here, current, level]
    have follows : σ.Follows m (first :: rest) first (.start 0 .lowest (first :: rest))
        { m with stage := .within first [] (.enter ⟨0, .lowest, false⟩), depth := 0 } :=
      ⟨first :: rest, reads, rfl, rfl, rfl, clean.goes _ _⟩
    have ends : Calls.EnterEnds σ.limits.maxParseDepth σ.eof 0 σ.limits.maxParseDepth.toNat :=
      (Calls.enter_chain_ends _ _ (Nat.zero_add _)).1
    obtain ⟨n, steps, follows⟩ := follows.steps (ends .lowest (first :: rest) [])
    rw [expressionStatement_eq_concluded]
    have depth : n.depth = m.depth := by
      obtain ⟨ls, -, depth, -⟩ := follows
      rw [depth, level]
    exact follows.comesOut_concluded.of_steps (.head (Machine.step_go action) steps) depth

/-! ## Programs -/

/-- What is reported of a statement when it comes out. -/
def outcomes (σ : Setting) : Outcome → List Event := Outcome.notes σ.limits σ.preferences

/-- The machine has come before a statement, or to the end, with the items up to there, and has
reported of them and of the lexemes what the timeline has up to there. The last of them came out at
`there`. -/
structure Between (σ : Setting) (opening : List Event) (all : List Lexeme) (items : List Item)
    (m : Machine) (ls : List Lexeme) : Prop where
  stage : m.stage = .between
  depth : m.depth = 0
  reads : σ.Reads m.cursor ls
  statements : m.statements = (programOf items).statements
  diagnostics : m.diagnostics = diagnosticsOf items
  events : ∃ front there, ls <:+ there ∧ m.events = front ++ σ.handed there ls ∧ ∀ more,
    opening ++ timeline σ.notes σ.outcomes (σ.pending all) (all.length - 1) (items ++ more) =
      front ++ timeline σ.notes σ.outcomes (σ.pending there) (there.length - 1) more

variable {opening : List Event} {all : List Lexeme} {items : List Item}

theorem programOf_append_singleton (items : List Item) (item : Item) :
    (programOf (items ++ [item])).statements =
      (programOf items).statements ++ (programOf [item]).statements := by
  simp [programOf]

theorem diagnosticsOf_append_singleton (items : List Item) (item : Item) :
    diagnosticsOf (items ++ [item]) = diagnosticsOf items ++ diagnosticsOf [item] := by
  simp [diagnosticsOf]

/-- One more item in the account of a timeline. It comes out at `ls'`. -/
theorem account_cons {front : List Event} {there ls' : List Lexeme}
    (account : ∀ more,
      opening ++ timeline σ.notes σ.outcomes (σ.pending all) (all.length - 1) (items ++ more) =
        front ++ timeline σ.notes σ.outcomes (σ.pending there) (there.length - 1) more)
    (suffix : ls' <:+ there) (outcome : Outcome) (more : List Item) :
    opening ++ timeline σ.notes σ.outcomes (σ.pending all) (all.length - 1)
        (items ++ [⟨outcome, ls'.length - 1⟩] ++ more) =
      front ++ σ.handed there ls' ++ σ.outcomes outcome ++
        timeline σ.notes σ.outcomes (σ.pending ls') (ls'.length - 1) more := by
  rw [List.append_assoc, account, List.singleton_append, σ.timeline_cons suffix]
  simp only [List.append_assoc]

/-- After the end of a statement comes the next one. -/
theorem Between.exists_next {item : Item} (h : σ.Between opening all items b ls₀)
    (reads : σ.Reads m.cursor ls) (level : m.depth = 0) (ends : σ.Ends b m ls₀ ls item) :
    ∃ n, Steps σ.limits σ.preferences m n ∧ σ.Between opening all (items ++ [item]) n ls.tail := by
  obtain ⟨front, there, suffix, events, account⟩ := h.events
  obtain ⟨outcome, ahead⟩ := item
  cases outcome with
  | accepted s =>
    obtain ⟨here, rfl, clean⟩ := ends
    have action : m.action σ.limits.maxParseDepth = some (.keep s) := by
      simp only [Machine.action, here]
    let kept : Machine :=
      { m with
        statements := m.statements ++ [s]
        events := m.events ++ s.notes σ.limits σ.preferences
        stage := .passed }
    have take : kept.action σ.limits.maxParseDepth = some (.take .between) := rfl
    obtain ⟨cursor, reads', taken⟩ := Reads.exists_take (m := kept) reads take
    refine ⟨_, .head (Machine.step_eq action) (.single taken), rfl, level, reads', ?_, ?_,
      _, ls, List.tail_suffix ls, ?_, account_cons account (clean.suffix.trans suffix) _⟩
    · rw [programOf_append_singleton, ← h.statements, ← clean.quiet.1]
      rfl
    · rw [diagnosticsOf_append_singleton, ← h.diagnostics, ← clean.quiet.2]
      exact (List.append_nil _).symm
    · rw [← σ.handed_trans suffix clean.suffix, ← List.append_assoc, ← events, ← clean.events]
      rfl
  | rejected d =>
    obtain ⟨here, failed⟩ := ends
    obtain ⟨there', before, after, rfl, events'⟩ := failed.events
    change m.events = _ ++ σ.outcomes (.rejected d) ++ _ at events'
    have action : m.action σ.limits.maxParseDepth = some (.go .passed m.depth) := by
      simp only [Machine.action, here]
    let passed : Machine := { m with stage := .passed }
    have take : passed.action σ.limits.maxParseDepth = some (.take .between) := rfl
    obtain ⟨cursor, reads', taken⟩ := Reads.exists_take (m := passed) reads take
    refine ⟨_, .head (Machine.step_go action) (.single taken), rfl, level, reads', ?_, ?_,
      _, there', (List.tail_suffix ls).trans before, ?_,
      account_cons account (after.trans suffix) _⟩
    · rw [programOf_append_singleton, ← h.statements, ← failed.statements]
      exact (List.append_nil _).symm
    · rw [diagnosticsOf_append_singleton, ← h.diagnostics]
      exact failed.diagnostics
    · rw [← σ.handed_trans suffix after, ← List.append_assoc, ← events,
        ← σ.handed_trans before (List.tail_suffix ls), ← List.append_assoc, ← events']
      rfl

/-- From before the first statement of some lexemes the machine gets to before the end of the
text. -/
theorem Between.exists_items (h : σ.Between opening all items m ls) :
    ∃ n, Steps σ.limits σ.preferences m n ∧
      σ.Between opening all (items ++ Parser.items σ.limits.maxParseDepth σ.eof ls) n [] := by
  fun_induction Parser.items σ.limits.maxParseDepth σ.eof ls generalizing items m with
  | case1 =>
    rw [List.append_nil]
    exact ⟨m, .refl, h⟩
  | case2 first rest result =>
    rename_i ih
    obtain ⟨n, ls, steps, reads, depth, left, ends⟩ := h.reads.comesOut_statement h.stage h.depth
    obtain ⟨n', steps', between⟩ := h.exists_next reads (depth.trans h.depth) ends
    rw [left] at between
    obtain ⟨last, others, between⟩ := ih between
    rw [List.append_assoc] at between
    exact ⟨last, steps.trans (steps'.trans others), between⟩

theorem Between.events_nil (h : σ.Between opening all items m []) :
    m.events = opening ++
      timeline σ.notes σ.outcomes (σ.pending all) (all.length - 1) items := by
  obtain ⟨front, there, -, events, account⟩ := h.events
  have whole := account []
  rw [List.append_nil] at whole
  rw [events, whole, σ.handed_nil]
  rfl

end Setting

/-! ## Lexemes that a turn uses up -/

namespace Setting

open Machine (Inside Turn)

variable {σ : Setting} {m n : Machine} {ls : List Lexeme}

/-- A step leaves the cursor where it is, or takes one lexeme. The step after a statement takes
one. -/
theorem Reads.exists_step (h : σ.Reads m.cursor ls)
    (next : m.step σ.limits σ.preferences = .ok (some n)) :
    ∃ ls', ls' <:+ ls ∧ σ.Reads n.cursor ls' ∧ (m.stage = .passed → ls' = ls.tail) := by
  obtain ⟨action, chosen, done⟩ := Machine.exists_perform next
  have takes : m.stage = .passed → action = .take .between := by
    intro passed
    simp only [Machine.action, passed, Option.some.injEq] at chosen
    exact chosen.symm
  cases action with
  | take stage =>
    obtain ⟨cursor, reads, taken⟩ := h.exists_take chosen
    cases taken.symm.trans next
    exact ⟨ls.tail, List.tail_suffix ls, reads, fun _ => rfl⟩
  | go stage depth =>
    cases done
    exact ⟨ls, List.suffix_rfl, h, fun passed => by cases takes passed⟩
  | record d stage =>
    cases done
    exact ⟨ls, List.suffix_rfl, h, fun passed => by cases takes passed⟩
  | keep s =>
    cases done
    exact ⟨ls, List.suffix_rfl, h, fun passed => by cases takes passed⟩
  | finish =>
    cases done
    exact ⟨ls, List.suffix_rfl, h, fun passed => by cases takes passed⟩

theorem Reads.exists_inside (h : σ.Reads m.cursor ls)
    (inside : Inside σ.limits σ.preferences m n) : ∃ ls', ls' <:+ ls ∧ σ.Reads n.cursor ls' := by
  induction inside with
  | refl => exact ⟨ls, List.suffix_rfl, h⟩
  | tail _ last ih =>
    obtain ⟨middle, suffix, reads⟩ := ih
    obtain ⟨ls', suffix', reads', -⟩ := reads.exists_step last.1
    exact ⟨ls', suffix'.trans suffix, reads'⟩

/-- There is no turn at the end of the text. -/
theorem Reads.ne_nil (h : σ.Reads m.cursor ls) (turn : Turn σ.limits σ.preferences m n) :
    ls ≠ [] := by
  rintro rfl
  obtain ⟨before, ⟨last, inside, final⟩, after⟩ := turn
  have current : m.cursor.current = σ.eof := h.current
  have action : m.action σ.limits.maxParseDepth = some .finish := by
    simp only [Machine.action, before, current, h.eof_kind]
  have finishes : m.step σ.limits σ.preferences = _ := Machine.step_eq action
  rcases inside.cases_head with rfl | ⟨next, ⟨first, inner⟩, -⟩
  · cases finishes.symm.trans final
    cases after
  · cases finishes.symm.trans first
    cases inner

theorem Reads.exists_turn (h : σ.Reads m.cursor ls) (turn : Turn σ.limits σ.preferences m n) :
    ∃ used ls', used ≠ [] ∧ ls = used ++ ls' ∧ σ.Reads n.cursor ls' := by
  have some := h.ne_nil turn
  obtain ⟨before, ⟨last, inside, final⟩, after⟩ := turn
  obtain ⟨middle, ⟨used, rfl⟩, reads⟩ := h.exists_inside inside
  rcases Machine.step_outer final (by rw [after]; rfl) with ⟨-, passed, -⟩ | ⟨-, -, finished⟩
  · obtain ⟨ls', -, reads', tail⟩ := reads.exists_step final
    obtain rfl := tail passed
    cases middle with
    | nil => exact ⟨used, [], by simpa using some, rfl, reads'⟩
    | cons l rest => exact ⟨used ++ [l], rest, by simp, by simp, reads'⟩
  · cases after.symm.trans finished

theorem Reads.exists_turns {k : Nat} (h : σ.Reads m.cursor ls)
    (turns : Machine.Turns σ.limits σ.preferences k m n) : ∃ ls', σ.Reads n.cursor ls' := by
  induction k generalizing m ls with
  | zero =>
    cases turns
    exact ⟨ls, h⟩
  | succ k ih =>
    obtain ⟨next, first, others⟩ := turns
    obtain ⟨used, ls', -, -, reads⟩ := h.exists_turn first
    exact ih reads others

end Setting

/-! ## Whole texts -/

/-- The setting of a lexer with some lexemes ahead. -/
def Setting.ofLexer (limits : Limits) (preferences : ParserPreferences) (lexer : Lexer)
    (ls : List Lexeme) (eof : Lexeme) : Setting where
  limits := limits
  preferences := preferences
  lexical := lexer.preferences
  totals := lexer.counts ls
  eof := eof

theorem Cursor.At.unreported {c : Cursor} {ls : List Lexeme} {eof : Lexeme} (h : c.At ls eof) :
    c.lexer.unreported (ls.drop 2) eof = (ls ++ [eof]).drop 2 := by
  unfold Lexer.unreported
  rw [h.ended]
  by_cases near : ls.length < 2
  · rw [decide_eq_true near, if_pos rfl, List.drop_eq_nil_of_le]
    rw [List.length_append, List.length_singleton]
    omega
  · rw [decide_eq_false near, List.drop_append_of_le_length (Nat.le_of_not_lt near)]
    rfl

namespace Machine

variable {lexer : Lexer} {ls : List Lexeme} {eof : Lexeme}

/-- A machine on a lexer and a parser on it take the same two lexemes. -/
theorem exists_start (limits : Limits) (preferences : ParserPreferences) (h : lexer.Ready ls eof) :
    ∃ m parser, start limits lexer = .ok m ∧
      Parser.ofLexer limits preferences lexer = .ok (parser, m.events) ∧
      parser.lexer = m.cursor.lexer ∧ parser.window = ls.take 2 ∧ parser.diagnostics = [] ∧
      parser.preferences = preferences ∧
      (Setting.ofLexer limits preferences lexer ls eof).Between m.events ls [] m ls := by
  obtain ⟨after, taken, passes⟩ := h.exists_next limits
  obtain ⟨last, taken', passes'⟩ := passes.ready.exists_next limits
  have both := passes.trans passes'
  have second : [(ls.drop 1).headD eof].filter (·.kind ≠ .eof) = (ls.drop 1).take 1 :=
    passes.ready.filter_headD
  have window : [ls.headD eof, (ls.drop 1).headD eof].filter (·.kind ≠ .eof) = ls.take 2 := by
    change ([ls.headD eof] ++ [(ls.drop 1).headD eof]).filter (·.kind ≠ .eof) = _
    rw [List.filter_append, h.filter_headD, second, ← List.take_add]
  have ended : last.ended = decide (ls.length < 2) := by
    rw [both.ended]
    cases already : lexer.ended with
    | false => rfl
    | true => rw [(h.settled already).1]; rfl
  have counts : last.counts (ls.drop 2) = lexer.counts ls := by
    rw [Lexer.counts_append both.preferences both.metrics]
    exact congrArg lexer.counts (List.take_append_drop 2 ls)
  refine ⟨_, _, start_eq taken taken', ofLexer_eq limits preferences taken taken', rfl, window, rfl,
    rfl, rfl, rfl, ⟨⟨rfl, congrArg (List.headD · eof) List.drop_one, both.ready, ended, h.kinds⟩,
      both.preferences, counts⟩, rfl, rfl, ?_⟩
  refine ⟨_, ls, List.suffix_rfl, ?_, fun more => rfl⟩
  rw [Setting.handed_self, List.append_nil]

/-- The machine on a lexer goes on until nothing is left. What it has kept, recorded, reported and
counted then is what comes of a program. -/
theorem exists_run (limits : Limits) (preferences : ParserPreferences) (h : lexer.Ready ls eof) :
    ∃ m last parser opening pass, start limits lexer = .ok m ∧ m.stage = .between ∧
      (Setting.ofLexer limits preferences lexer ls eof).Reads m.cursor ls ∧
      Parser.ofLexer limits preferences lexer = .ok (parser, opening) ∧
      parser.program limits = .ok pass ∧ Steps limits preferences m last ∧
      last.stage = .finished ∧ last.statements = pass.program.statements ∧
      last.diagnostics = pass.parser.diagnostics ∧ last.events = opening ++ pass.events ∧
      last.cursor.lexer.metrics = pass.parser.lexer.metrics := by
  let σ := Setting.ofLexer limits preferences lexer ls eof
  obtain ⟨m, parser, started, made, same, window, none, hpreferences, between⟩ :=
    exists_start limits preferences h
  obtain ⟨n, steps, ended⟩ := between.exists_items
  have read : σ.Reads m.cursor ls := between.reads
  have unreported : m.cursor.lexer.unreported (ls.drop 2) eof = σ.pending ls :=
    read.toAt.unreported
  have faces : parser.lexer.Faces (ls.drop 2) eof := by
    rw [same]
    exact read.ready.faces
  have all : parser.window ++ ls.drop 2 = ls := by rw [window, List.take_append_drop]
  obtain ⟨after, parsed, hdiagnostics, hmetrics⟩ := program_eq limits faces none
  rw [all] at parsed hdiagnostics
  rw [same, read.preferences, read.counts, unreported, σ.length_pending, hpreferences,
    hdiagnostics] at parsed
  rw [same, read.counts] at hmetrics
  have action : n.action limits.maxParseDepth = some .finish := by
    have current : n.cursor.current = eof := ended.reads.current
    simp only [action, ended.stage, current, h.kind_eof]
  refine ⟨m, _, parser, m.events, _, started, between.stage, read, made, parsed,
    steps.tail (step_eq action), rfl, ended.statements, ended.diagnostics.trans hdiagnostics.symm,
    ?_, ended.reads.counts.trans hmetrics.symm⟩
  change n.events ++ [(Program.mk n.statements).note limits n.diagnostics.length] = _
  rw [ended.events_nil, ended.statements, ended.diagnostics, List.append_assoc]
  rfl

end Machine

end Frontend.Parser
