import Frontend.Parser.Statement
import Frontend.Proofs.Parser.Calls
import Frontend.Proofs.Parser.Program

/-!
# The depth of the parser

The calls that wait for one another have opened at least one level each, one above the other
(`Nested`), and no step breaks this (`Sound.step`). So there are never more of them than the counter
says, which stays within the limit. A whole program is parsed with one counter (`Progress`), which
every statement finds at zero.
-/

set_option autoImplicit false

namespace Frontend.Parser

open Relation (ReflTransGen)

variable {limit : UInt64} {eof : Lexeme}

namespace Calls

/-! ## Levels that calls have opened -/

/-- The calls in progress. -/
def active (c : Calls) : List Call :=
  let waiting := c.waiting.map (·.1)
  match c.stage with
  | .enter call _ | .operand call _ | .chain call _ _ | .leave call _ => call :: waiting
  | .done _ => waiting

/-- How many calls in progress have opened their level. -/
def opened (c : Calls) : Nat := c.active.countP (·.opened)

/-- Calls that wait have opened their levels, each below the one that it waits for, down to
`base`. -/
def Nested (base : Nat) : Nat → List (Call × Waiting) → Prop
  | depth, [] => depth = base
  | depth, (call, _) :: waiting => call.opened ∧ call.entry < depth ∧ Nested base call.entry waiting

/-- What the stage of the call in hand says of the levels: it has opened none before it is entered
and at least one after that, and it may have left any number of them open. -/
def Levels (base depth : Nat) (waiting : List (Call × Waiting)) : Stage → Prop
  | .enter call _ => ¬call.opened ∧ call.entry = depth ∧ Nested base depth waiting
  | .operand call _ | .chain call _ _ =>
    call.opened ∧ call.entry < depth ∧ Nested base call.entry waiting
  | .leave call _ =>
    call.entry ≤ depth ∧ (call.opened → call.entry < depth) ∧ Nested base call.entry waiting
  | .done _ => Nested base depth waiting

/-- Calls above `base` that keep to the limit. -/
structure Sound (limit : UInt64) (base : Nat) (c : Calls) : Prop where
  depth_le : c.depth ≤ limit.toNat
  levels : Levels base c.depth c.waiting c.stage

theorem Nested.count {base depth : Nat} {waiting : List (Call × Waiting)}
    (h : Nested base depth waiting) :
    base + (waiting.map (·.1)).countP (·.opened) ≤ depth := by
  induction waiting generalizing depth with
  | nil =>
    cases h
    exact Nat.le_refl _
  | cons frame waiting ih =>
    obtain ⟨opened, below, nested⟩ := h
    have inner := ih nested
    have one : ((frame :: waiting).map (·.1)).countP (·.opened) =
        (waiting.map (·.1)).countP (·.opened) + 1 :=
      List.countP_cons_of_pos opened
    omega

theorem Nested.count_cons {base depth : Nat} {call : Call} {waiting : List (Call × Waiting)}
    (h : Nested base call.entry waiting) (le : call.entry ≤ depth)
    (below : call.opened → call.entry < depth) :
    base + (call :: waiting.map (·.1)).countP (·.opened) ≤ depth := by
  have others := h.count
  by_cases opened : call.opened
  · have less := below opened
    have one : (call :: waiting.map (·.1)).countP (·.opened) =
        (waiting.map (·.1)).countP (·.opened) + 1 :=
      List.countP_cons_of_pos opened
    omega
  · have none : (call :: waiting.map (·.1)).countP (·.opened) =
        (waiting.map (·.1)).countP (·.opened) :=
      List.countP_cons_of_neg opened
    omega

theorem Sound.count {base : Nat} {c : Calls} (h : Sound limit base c) :
    base + c.opened ≤ c.depth := by
  obtain ⟨-, levels⟩ := h
  obtain ⟨stage, waiting, depth⟩ := c
  cases stage with
  | enter call lexemes =>
    obtain ⟨closed, rfl, nested⟩ := levels
    exact nested.count_cons (Nat.le_refl _) fun opened => absurd opened closed
  | operand call lexemes =>
    obtain ⟨opened, below, nested⟩ := levels
    exact nested.count_cons (Nat.le_of_lt below) fun _ => below
  | chain call left lexemes =>
    obtain ⟨opened, below, nested⟩ := levels
    exact nested.count_cons (Nat.le_of_lt below) fun _ => below
  | leave call result =>
    obtain ⟨le, below, nested⟩ := levels
    exact nested.count_cons le below
  | done result => exact Nested.count levels

theorem sound_start {base : Nat} (within : base ≤ limit.toNat) (least : Precedence)
    (lexemes : List Lexeme) :
    Sound limit base (start base least lexemes) :=
  ⟨within, Bool.false_ne_true, rfl, rfl⟩

/-! ## Steps -/

section

variable {base depth : Nat} {call : Call} {waiting : List (Call × Waiting)} {d : Calls}

theorem sound_leave (within : depth ≤ limit.toNat) (below : call.entry < depth)
    (nested : Nested base call.entry waiting) (result : Attempt Expr) :
    Sound limit base ⟨.leave call result, waiting, depth⟩ :=
  ⟨within, Nat.le_of_lt below, fun _ => below, nested⟩

theorem Sound.step_enter {lexemes : List Lexeme}
    (h : Sound limit base ⟨.enter call lexemes, waiting, depth⟩)
    (next : step limit eof ⟨.enter call lexemes, waiting, depth⟩ = some d) :
    Sound limit base d := by
  obtain ⟨within, closed, rfl, nested⟩ := h
  by_cases room : call.entry < limit.toNat
  · rw [enter_step room] at next
    cases next
    exact ⟨room, rfl, Nat.lt_succ_self _, nested⟩
  · rw [enter_step_full room] at next
    cases next
    exact ⟨within, Nat.le_refl _, fun opened => absurd opened closed, nested⟩

theorem Sound.step_operand {lexemes : List Lexeme}
    (h : Sound limit base ⟨.operand call lexemes, waiting, depth⟩)
    (next : step limit eof ⟨.operand call lexemes, waiting, depth⟩ = some d) :
    Sound limit base d := by
  obtain ⟨within, opened, below, nested⟩ := h
  cases lexemes with
  | nil =>
    cases next
    exact sound_leave within below nested _
  | cons l rest =>
    cases kind : l.kind
    case ident =>
      simp only [step, kind, Option.some.injEq] at next
      subst next
      exact ⟨within, opened, below, nested⟩
    case int =>
      cases value : Text.int64? l.literal.toList with
      | some value =>
        simp only [step, kind, value, Option.some.injEq] at next
        subst next
        exact ⟨within, opened, below, nested⟩
      | none =>
        simp only [step, kind, value, Option.some.injEq] at next
        exact next ▸ sound_leave within below nested _
    case bang | minus =>
      simp only [step, kind, Option.some.injEq] at next
      subst next
      exact ⟨within, Bool.false_ne_true, rfl, opened, below, nested⟩
    all_goals
      simp only [step, kind, Option.some.injEq] at next
      exact next ▸ sound_leave within below nested _

theorem Sound.step_chain {left : Expr} {lexemes : List Lexeme}
    (h : Sound limit base ⟨.chain call left lexemes, waiting, depth⟩)
    (next : step limit eof ⟨.chain call left lexemes, waiting, depth⟩ = some d) :
    Sound limit base d := by
  obtain ⟨within, opened, below, nested⟩ := h
  cases lexemes with
  | nil =>
    cases next
    exact sound_leave within below nested _
  | cons operator rest =>
    by_cases binds : call.least < operator.kind.precedence
    · by_cases room : depth < limit.toNat
      · rw [chain_step binds room] at next
        cases next
        -- the level of the operator stays open until the call is left, so more than one may be
        -- above its entry
        exact ⟨room, Bool.false_ne_true, rfl, opened, Nat.lt_succ_of_lt below, nested⟩
      · rw [chain_step_full binds room] at next
        cases next
        exact sound_leave within below nested _
    · rw [chain_step_loose binds] at next
      cases next
      exact sound_leave within below nested _

theorem Sound.step_done {result : Attempt Expr}
    (h : Sound limit base ⟨.done result, waiting, depth⟩)
    (next : step limit eof ⟨.done result, waiting, depth⟩ = some d) : Sound limit base d := by
  obtain ⟨within, levels⟩ := h
  cases waiting with
  | nil => cases next
  | cons frame waiting =>
    obtain ⟨opened, below, nested⟩ := levels
    cases result with
    | ok found =>
      cases next
      exact ⟨within, opened, below, nested⟩
    | error rejection =>
      cases next
      exact sound_leave within below nested _

end

theorem Sound.step {base : Nat} {c d : Calls} (h : Sound limit base c)
    (next : c.step limit eof = some d) :
    Sound limit base d := by
  obtain ⟨stage, waiting, depth⟩ := c
  cases stage with
  | enter call lexemes => exact h.step_enter next
  | operand call lexemes => exact h.step_operand next
  | chain call left lexemes => exact h.step_chain next
  | leave call result =>
    obtain ⟨within, le, -, nested⟩ := h
    cases next
    exact ⟨Nat.le_trans le within, nested⟩
  | done result => exact h.step_done next

theorem Sound.steps {base : Nat} {c d : Calls} (h : Sound limit base c)
    (steps : Steps limit eof c d) :
    Sound limit base d := by
  induction steps with
  | refl => exact h
  | tail _ last ih => exact ih.step last

/-- The result when the call is over and no other waits for it. -/
def result? (c : Calls) : Option (Attempt Expr) :=
  match c.stage, c.waiting with
  | .done result, [] => some result
  | _, _ => none

theorem result?_eq_none {c d : Calls} (next : c.step limit eof = some d) : c.result? = none := by
  obtain ⟨stage, waiting, depth⟩ := c
  cases stage with
  | done result =>
    cases waiting with
    | nil => cases next
    | cons frame waiting => rfl
  | _ => rfl

theorem Sound.depth_eq {base : Nat} {c : Calls} {result : Attempt Expr} (h : Sound limit base c)
    (ended : c.result? = some result) : c.depth = base := by
  obtain ⟨-, levels⟩ := h
  obtain ⟨stage, waiting, depth⟩ := c
  cases stage with
  | done result =>
    cases waiting with
    | nil => exact levels
    | cons frame waiting => cases ended
  | _ => cases ended

end Calls

/-! ## One statement after the other -/

/-- How a statement comes out that was parsed as an expression, and the lexemes after it. -/
def concluded (first : Lexeme) : Attempt Expr → Item × List Lexeme
  | .ok (e, rest) =>
    let after := rest.dropWhile (·.kind = .semicolon)
    (⟨.accepted (.expression first.token e (first.span.merge e.span)), after.length⟩, after)
  | .error rejection =>
    (⟨.rejected rejection.diagnostic, rejection.ahead⟩,
      rejection.rest.dropWhile (·.kind = .semicolon))

theorem expressionStatement_eq_concluded (first : Lexeme) (rest : List Lexeme) :
    expressionStatement limit first eof rest =
      concluded first (expression limit eof .lowest limit.toNat (first :: rest)) := by
  unfold expressionStatement concluded
  rfl

/-- The parser stands before a statement, with its counter and the lexemes ahead, or inside the
expression that starts with a lexeme. -/
inductive Phase where
  | between (depth : Nat) (rest : List Lexeme)
  | within (first : Lexeme) (calls : Calls)

/-- How far the parser is in a program: the statements that are done, and where it stands. -/
structure Progress where
  items : List Item
  phase : Phase

namespace Progress

/-- A statement is done. The counter stays as it is. -/
def done (s : Progress) (depth : Nat) (found : Item × List Lexeme) : Progress :=
  ⟨s.items ++ [found.1], .between depth found.2⟩

/-- What comes next. There is nothing when no lexeme is ahead of the parser. -/
def step (limit : UInt64) (eof : Lexeme) (s : Progress) : Option Progress :=
  match s.phase with
  | .between _ [] => none
  | .between depth (first :: rest) =>
    match first.kind with
    | .letWord => some (s.done depth (bindingAfter first eof rest))
    | .returnWord => some (s.done depth (skipped (.giving first.token none) first eof rest))
    | _ => some { s with phase := .within first (.start depth .lowest (first :: rest)) }
  | .within first calls =>
    match calls.result? with
    | some result => some (s.done calls.depth (concluded first result))
    | none => (calls.step limit eof).map fun next => { s with phase := .within first next }

abbrev Steps (limit : UInt64) (eof : Lexeme) : Progress → Progress → Prop :=
  ReflTransGen fun s t => s.step limit eof = some t

/-- The counter. -/
def depth (s : Progress) : Nat :=
  match s.phase with
  | .between depth _ => depth
  | .within _ calls => calls.depth

/-- How many calls in progress have opened their level. -/
def opened (s : Progress) : Nat :=
  match s.phase with
  | .between _ _ => 0
  | .within _ calls => calls.opened

/-- The counter is at zero before a statement, and counts the levels inside an expression. -/
def Sound (limit : UInt64) (s : Progress) : Prop :=
  match s.phase with
  | .between depth _ => depth = 0
  | .within _ calls => calls.Sound limit 0

theorem Sound.bounds {s : Progress} (h : s.Sound limit) :
    s.depth ≤ limit.toNat ∧ s.opened ≤ s.depth := by
  obtain ⟨items, phase⟩ := s
  cases phase with
  | between depth rest =>
    cases h
    exact ⟨Nat.zero_le _, Nat.le_refl _⟩
  | within first calls =>
    have count := Calls.Sound.count h
    have within := Calls.Sound.depth_le h
    simp only [depth, opened]
    omega

theorem Sound.step {s t : Progress} (h : s.Sound limit) (next : s.step limit eof = some t) :
    t.Sound limit := by
  obtain ⟨items, phase⟩ := s
  cases phase with
  | between depth lexemes =>
    cases lexemes with
    | nil => cases next
    | cons first rest =>
      simp only [Progress.step] at next
      split at next
      · cases next
        exact h
      · cases next
        exact h
      · cases next
        cases h
        exact Calls.sound_start (Nat.zero_le _) _ _
  | within first calls =>
    simp only [Progress.step] at next
    split at next
    · rename_i ended
      cases next
      exact Calls.Sound.depth_eq h ended
    · obtain ⟨d, moved, rfl⟩ := Option.map_eq_some_iff.mp next
      exact Calls.Sound.step h moved

theorem Sound.steps {s t : Progress} (h : s.Sound limit) (steps : Steps limit eof s t) :
    t.Sound limit := by
  induction steps with
  | refl => exact h
  | tail _ last ih => exact ih.step last

/-! ## Whole programs -/

theorem step_within {c d : Calls} (moved : c.step limit eof = some d) (items : List Item)
    (first : Lexeme) :
    step limit eof ⟨items, .within first c⟩ = some ⟨items, .within first d⟩ := by
  simp only [step, Calls.result?_eq_none moved, moved, Option.map_some]

theorem within_steps {c d : Calls} (steps : Calls.Steps limit eof c d) (items : List Item)
    (first : Lexeme) :
    Steps limit eof ⟨items, .within first c⟩ ⟨items, .within first d⟩ := by
  induction steps with
  | refl => exact ReflTransGen.refl
  | tail _ last ih => exact ih.tail (step_within last items first)

theorem statement_steps (items : List Item) (first : Lexeme) (rest : List Lexeme) :
    Steps limit eof ⟨items, .between 0 (first :: rest)⟩
      (done ⟨items, .between 0 []⟩ 0 (statement limit eof first rest)) := by
  unfold statement
  split
  · rename_i kind
    refine ReflTransGen.single ?_
    simp only [step, kind]
    rfl
  · rename_i kind
    refine ReflTransGen.single ?_
    simp only [step, kind]
    rfl
  · rename_i binding giving
    have entered : step limit eof ⟨items, .between 0 (first :: rest)⟩ =
        some ⟨items, .within first (.start 0 .lowest (first :: rest))⟩ := by
      simp only [step]
    have ends : Calls.EnterEnds limit eof 0 limit.toNat :=
      (Calls.enter_chain_ends _ _ (Nat.zero_add _)).1
    have inside := ends .lowest (first :: rest) []
    rw [expressionStatement_eq_concluded]
    exact ReflTransGen.head entered
      ((within_steps inside items first).trans (ReflTransGen.single rfl))

/-- The parser comes to the end of the lexemes with the statements that `items` lists. -/
theorem items_steps (before : List Item) (lexemes : List Lexeme) :
    Steps limit eof ⟨before, .between 0 lexemes⟩
      ⟨before ++ Parser.items limit eof lexemes, .between 0 []⟩ := by
  fun_induction Parser.items limit eof lexemes generalizing before with
  | case1 => rw [List.append_nil]
  | case2 first rest result ih =>
    have others := ih (before ++ [result.1])
    rw [List.append_assoc] at others
    exact (statement_steps before first rest).trans others

/-- Wherever the parser is, it goes on to the same end. -/
theorem steps_end {lexemes : List Lexeme} {s : Progress}
    (reached : Steps limit eof ⟨[], .between 0 lexemes⟩ s) :
    Steps limit eof s ⟨Parser.items limit eof lexemes, .between 0 []⟩ := by
  have whole : Steps limit eof ⟨[], .between 0 lexemes⟩
      ⟨Parser.items limit eof lexemes, .between 0 []⟩ :=
    items_steps [] lexemes
  have single : Relator.RightUnique fun s t : Progress => s.step limit eof = some t := by
    intro s t u first second
    exact Option.some.inj (first.symm.trans second)
  -- of two runs from the same start one goes on from the end of the other, and nothing comes after
  -- the last lexeme
  rcases ReflTransGen.total_of_right_unique single reached whole with onwards | back
  · exact onwards
  · rcases back.cases_head with rfl | ⟨t, next, -⟩
    · exact ReflTransGen.refl
    · cases next

end Progress

/-- From wherever the parser of a program is, a call for an expression sets the counter back,
whether it finds one or not, and neither the counter nor the number of calls in progress gets past
the limit; a statement finds the counter at zero. -/
theorem depth_kept {lexemes : List Lexeme} {s : Progress}
    (reached : Progress.Steps limit eof ⟨[], .between 0 lexemes⟩ s) :
    (∀ least tokens waiting, Calls.Steps limit eof
      ⟨.enter ⟨s.depth, least, false⟩ tokens, waiting, s.depth⟩
        ⟨.done (expression limit eof least (limit.toNat - s.depth) tokens), waiting, s.depth⟩) ∧
      (∀ least tokens c, Calls.Steps limit eof (.start s.depth least tokens) c →
        c.depth ≤ limit.toNat ∧ s.opened + c.opened ≤ limit.toNat) ∧
      s.depth ≤ limit.toNat ∧ s.opened ≤ limit.toNat ∧
      (∀ depth rest, s.phase = .between depth rest → depth = 0) ∧
      Progress.Steps limit eof s ⟨items limit eof lexemes, .between 0 []⟩ := by
  have start : Progress.Sound limit ⟨[], .between 0 lexemes⟩ := rfl
  have sound := start.steps reached
  obtain ⟨within, open_le⟩ := sound.bounds
  have room : s.depth + (limit.toNat - s.depth) = limit.toNat := Nat.add_sub_of_le within
  refine ⟨?_, ?_, within, Nat.le_trans open_le within, ?_, Progress.steps_end reached⟩
  · exact (Calls.enter_chain_ends _ _ room).1
  · intro least tokens c inside
    have inner := (Calls.sound_start within least tokens).steps inside
    have count := inner.count
    have top := inner.depth_le
    omega
  · intro depth rest before
    unfold Progress.Sound at sound
    rw [before] at sound
    exact sound

/-- Under a limit of 2, the operand of `--1` is one level too deep: two calls wait when it is asked
for. -/
theorem depth_kept_full :
    let first : Lexeme := ⟨⟨.minus, "-"⟩, ⟨⟨0, 1, 1⟩, ⟨1, 1, 2⟩⟩⟩
    let second : Lexeme := ⟨⟨.minus, "-"⟩, ⟨⟨1, 1, 2⟩, ⟨2, 1, 3⟩⟩⟩
    let one : Lexeme := ⟨⟨.int, "1"⟩, ⟨⟨2, 1, 3⟩, ⟨3, 1, 4⟩⟩⟩
    let eof : Lexeme := ⟨⟨.eof, ""⟩, ⟨⟨3, 1, 4⟩, ⟨3, 1, 4⟩⟩⟩
    let s : Progress := ⟨[], .within first ⟨.enter ⟨2, .unary, false⟩ [one],
      [(⟨1, .unary, true⟩, .unary second), (⟨0, .lowest, true⟩, .unary first)], 2⟩⟩
    Progress.Steps 2 eof ⟨[], .between 0 [first, second, one]⟩ s ∧ s.depth = 2 ∧ s.opened = 2 ∧
      s.depth ≤ (2 : UInt64).toNat ∧ s.opened ≤ (2 : UInt64).toNat ∧
      Progress.Steps 2 eof s ⟨items 2 eof [first, second, one], .between 0 []⟩ ∧
      items 2 eof [first, second, one] = [⟨.rejected (.tooDeep 2 one.span), 0⟩] := by
  intro first second one eof s
  have reached : Progress.Steps 2 eof ⟨[], .between 0 [first, second, one]⟩ s :=
    .head rfl (.head rfl (.head rfl (.head rfl (.single rfl))))
  obtain ⟨-, -, depth, opened, -, onwards⟩ := depth_kept reached
  have givenUp : statement 2 eof first [second, one] =
      (⟨.rejected (.tooDeep 2 one.span), 0⟩, []) := rfl
  refine ⟨reached, rfl, rfl, depth, opened, onwards, ?_⟩
  rw [items_cons, givenUp, items]

end Frontend.Parser
