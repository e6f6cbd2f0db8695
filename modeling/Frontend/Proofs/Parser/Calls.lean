import Mathlib.Logic.Relation
import Frontend.Proofs.Parser.Expression

/-!
# Calls of the expression parser, step by step

The parser calls itself for every operand, and one counter says how deep it is. A call opens a level
when it is entered and one more for every operator that it chains on, does not give them back
wherever it is left, and sets the counter back to what it was when it was made. `Calls` is the
parser between two such events, with the calls that wait for the one in hand, and `Calls.step` is
the next event. The steps lead from a call to its end with the result that `expression` has,
whichever calls wait for it (`enter_chain_ends`).
-/

set_option autoImplicit false

namespace Frontend.Parser

/-- A call: the depth when it was made, what its operators have to bind tighter than, and whether it
has opened its level. -/
structure Call where
  entry : Nat
  least : Precedence
  opened : Bool

/-- What a call waits for while another one is made for it: the operand of a unary operator, or the
right one of a binary operator. -/
inductive Waiting where
  | unary (operator : Lexeme)
  | binary (left : Expr) (operator : Lexeme)

/-- The expression when the operand is there. -/
def Waiting.complete : Waiting → Expr → Expr
  | .unary operator, operand => unaryOf operator operand
  | .binary left operator, right => binaryOf left operator right

/-- How far the call in hand is: made, about to read its operand, about to chain on an operator,
left with a result, or over. -/
inductive Stage where
  | enter (call : Call) (lexemes : List Lexeme)
  | operand (call : Call) (lexemes : List Lexeme)
  | chain (call : Call) (left : Expr) (lexemes : List Lexeme)
  | leave (call : Call) (result : Attempt Expr)
  | done (result : Attempt Expr)

/-- The call in hand, those that wait for it, innermost first, and the counter. -/
structure Calls where
  stage : Stage
  waiting : List (Call × Waiting)
  depth : Nat

namespace Calls

open Relation (ReflTransGen)

variable {limit : UInt64} {eof : Lexeme}

/-- A call at a depth, which nothing waits for. -/
def start (depth : Nat) (least : Precedence) (lexemes : List Lexeme) : Calls :=
  ⟨.enter ⟨depth, least, false⟩ lexemes, [], depth⟩

/-- One more level is opened and the parser goes on, or there is none left and the call is given
up. -/
def descend (limit : UInt64) (c : Calls) (call : Call) (rejection : Rejection) (next : Calls) :
    Calls :=
  if c.depth < limit.toNat then { next with depth := c.depth + 1 }
  else { c with stage := .leave call (.error rejection) }

/-- What comes next. There is nothing when the call is over and no other waits for it. -/
def step (limit : UInt64) (eof : Lexeme) (c : Calls) : Option Calls :=
  match c.stage with
  | .enter call lexemes =>
    some (c.descend limit call
      (outOfRoom limit (lexemes.headD eof).span (lexemes.length - 1) lexemes)
      { c with stage := .operand { call with opened := true } lexemes })
  | .operand call [] =>
    some { c with stage := .leave call (.error ⟨.noOperand eof.kind eof.span, 0, []⟩) }
  | .operand call (l :: rest) =>
    match l.kind with
    | .ident => some { c with stage := .chain call (.identifier (nameOf l)) rest }
    | .int =>
      match Text.int64? l.literal.toList with
      | some value => some { c with stage := .chain call (.integer l.token value l.span) rest }
      | none =>
        some { c with
          stage := .leave call (.error ⟨.integerRange l.literal l.span, rest.length, rest⟩) }
    | .bang | .minus =>
      some { c with
        stage := .enter ⟨c.depth, .unary, false⟩ rest
        waiting := (call, .unary l) :: c.waiting }
    | kind =>
      some { c with stage := .leave call (.error ⟨.noOperand kind l.span, rest.length, rest⟩) }
  | .chain call left [] => some { c with stage := .leave call (.ok (left, [])) }
  | .chain call left (operator :: rest) =>
    if call.least < operator.kind.precedence then
      some (c.descend limit call
        (outOfRoom limit operator.span (rest.length + 1) (operator :: rest))
        { c with
          stage := .enter ⟨c.depth + 1, operator.kind.precedence, false⟩ rest
          waiting := (call, .binary left operator) :: c.waiting })
    else some { c with stage := .leave call (.ok (left, operator :: rest)) }
  | .leave call result => some { c with stage := .done result, depth := call.entry }
  | .done result =>
    match c.waiting with
    | [] => none
    | (caller, waits) :: waiting =>
      match result with
      | .ok (e, rest) =>
        some { c with stage := .chain caller (waits.complete e) rest, waiting := waiting }
      | .error rejection =>
        some { c with stage := .leave caller (.error rejection), waiting := waiting }

/-- Any number of steps. -/
abbrev Steps (limit : UInt64) (eof : Lexeme) : Calls → Calls → Prop :=
  ReflTransGen fun c d => c.step limit eof = some d

/-! ## One call -/

variable {call : Call} {waiting : List (Call × Waiting)} {depth : Nat}

/-- However a call is left, the counter is set back. -/
theorem leave_steps (call : Call) (result : Attempt Expr) (waiting : List (Call × Waiting))
    (depth : Nat) :
    Steps limit eof ⟨.leave call result, waiting, depth⟩ ⟨.done result, waiting, call.entry⟩ :=
  ReflTransGen.single rfl

theorem enter_step (room : depth < limit.toNat) (lexemes : List Lexeme) :
    step limit eof ⟨.enter call lexemes, waiting, depth⟩ =
      some ⟨.operand { call with opened := true } lexemes, waiting, depth + 1⟩ := by
  simp only [step, descend, if_pos room]

theorem enter_step_full (full : ¬depth < limit.toNat) (lexemes : List Lexeme) :
    step limit eof ⟨.enter call lexemes, waiting, depth⟩ =
      some ⟨.leave call
          (.error (outOfRoom limit (lexemes.headD eof).span (lexemes.length - 1) lexemes)),
        waiting, depth⟩ := by
  simp only [step, descend, if_neg full]

theorem chain_step_loose {operator : Lexeme} (loose : ¬call.least < operator.kind.precedence)
    (left : Expr) (rest : List Lexeme) :
    step limit eof ⟨.chain call left (operator :: rest), waiting, depth⟩ =
      some ⟨.leave call (.ok (left, operator :: rest)), waiting, depth⟩ := by
  simp only [step, if_neg loose]

section

variable {operator : Lexeme} (binds : call.least < operator.kind.precedence)

include binds

theorem chain_step (room : depth < limit.toNat) (left : Expr) (rest : List Lexeme) :
    step limit eof ⟨.chain call left (operator :: rest), waiting, depth⟩ =
      some ⟨.enter ⟨depth + 1, operator.kind.precedence, false⟩ rest,
        (call, .binary left operator) :: waiting, depth + 1⟩ := by
  simp only [step, if_pos binds, descend, if_pos room]

theorem chain_step_full (full : ¬depth < limit.toNat) (left : Expr) (rest : List Lexeme) :
    step limit eof ⟨.chain call left (operator :: rest), waiting, depth⟩ =
      some ⟨.leave call
        (.error (outOfRoom limit operator.span (rest.length + 1) (operator :: rest))), waiting,
        depth⟩ := by
  simp only [step, if_pos binds, descend, if_neg full]

end

/-! ## Whole calls -/

/-- A call comes out as `expression` says with some levels left, whichever calls wait for it, and
gives its levels back. -/
def EnterEnds (limit : UInt64) (eof : Lexeme) (depth room : Nat) : Prop :=
  ∀ least lexemes waiting, Steps limit eof ⟨.enter ⟨depth, least, false⟩ lexemes, waiting, depth⟩
    ⟨.done (expression limit eof least room lexemes), waiting, depth⟩

/-- A call that chains on operators comes out as `chain` says with some levels left, and gives its
levels back. -/
def ChainEnds (limit : UInt64) (eof : Lexeme) (depth room : Nat) : Prop :=
  ∀ call left lexemes waiting, Steps limit eof ⟨.chain call left lexemes, waiting, depth⟩
    ⟨.done (chain limit eof call.least room left lexemes), waiting, call.entry⟩

theorem enterEnds_full (full : depth = limit.toNat) : EnterEnds limit eof depth 0 := by
  intro least lexemes waiting
  have noRoom : ¬depth < limit.toNat := by omega
  rw [expression]
  exact ReflTransGen.head (enter_step_full noRoom lexemes)
    (leave_steps ⟨depth, least, false⟩ _ waiting depth)

/-- A chain that does not bind the next operator is over. -/
theorem chainEnds_of_binds {room : Nat} (links : ∀ call left operator rest waiting,
      call.least < operator.kind.precedence →
      Steps limit eof ⟨.chain call left (operator :: rest), waiting, depth⟩
        ⟨.done (chain limit eof call.least room left (operator :: rest)), waiting, call.entry⟩) :
    ChainEnds limit eof depth room := by
  intro call left lexemes waiting
  cases lexemes with
  | nil =>
    rw [chain]
    exact ReflTransGen.head rfl (leave_steps call _ waiting depth)
  | cons operator rest =>
    by_cases binds : call.least < operator.kind.precedence
    · exact links call left operator rest waiting binds
    · rw [chain.eq_def]
      simp only [if_neg binds]
      exact ReflTransGen.head (chain_step_loose binds left rest) (leave_steps call _ waiting depth)

theorem chainEnds_full (full : depth = limit.toNat) : ChainEnds limit eof depth 0 := by
  refine chainEnds_of_binds fun call left operator rest waiting binds => ?_
  have noRoom : ¬depth < limit.toNat := by omega
  rw [chain, if_pos binds]
  exact ReflTransGen.head (chain_step_full binds noRoom left rest)
    (leave_steps call _ waiting depth)

section

variable {room : Nat} (inner : EnterEnds limit eof depth room)
  (others : ChainEnds limit eof depth room)

include inner others

/-- A call is made for an operand. When it is over, the call that waits for it goes on or is given
up. -/
theorem nested_steps (call : Call) (waits : Waiting) (least : Precedence) (lexemes : List Lexeme)
    (waiting : List (Call × Waiting)) :
    Steps limit eof ⟨.enter ⟨depth, least, false⟩ lexemes, (call, waits) :: waiting, depth⟩
      ⟨.done (match expression limit eof least room lexemes with
        | .ok (e, rest) => chain limit eof call.least room (waits.complete e) rest
        | .error rejection => .error rejection), waiting, call.entry⟩ := by
  refine (inner least lexemes _).trans ?_
  cases expression limit eof least room lexemes with
  | ok found => exact ReflTransGen.head rfl (others call _ _ waiting)
  | error rejection => exact ReflTransGen.head rfl (leave_steps call _ waiting depth)

theorem operand_steps (call : Call) (lexemes : List Lexeme) (waiting : List (Call × Waiting)) :
    Steps limit eof ⟨.operand call lexemes, waiting, depth⟩
      ⟨.done (match operand eof (fun rest => expression limit eof .unary room rest) lexemes with
        | .ok (left, rest) => chain limit eof call.least room left rest
        | .error rejection => .error rejection), waiting, call.entry⟩ := by
  cases lexemes with
  | nil => exact ReflTransGen.head rfl (leave_steps call _ waiting depth)
  | cons l rest =>
    cases kind : l.kind
    case ident =>
      rw [operand, kind]
      exact ReflTransGen.head (by simp only [step, kind]) (others call _ rest waiting)
    case int =>
      rw [operand, kind]
      cases value : Text.int64? l.literal.toList with
      | some value =>
        exact ReflTransGen.head (by simp only [step, kind, value]) (others call _ rest waiting)
      | none =>
        refine ReflTransGen.head ?_ (leave_steps call _ waiting depth)
        simp only [step, kind, value]
    case bang | minus =>
      have unary : l.kind.isUnary := by rw [kind]; rfl
      have first : step limit eof ⟨.operand call (l :: rest), waiting, depth⟩ =
          some ⟨.enter ⟨depth, .unary, false⟩ rest, (call, .unary l) :: waiting, depth⟩ := by
        simp only [step, kind]
      have whole : Steps limit eof _ _ :=
        ReflTransGen.head first (nested_steps inner others call (.unary l) .unary rest waiting)
      rw [operand_unary unary]
      generalize expression limit eof .unary room rest = result at whole ⊢
      cases result <;> exact whole
    all_goals
      rw [operand, kind]
      refine ReflTransGen.head ?_ (leave_steps call _ waiting depth)
      simp only [step, kind]

end

/-- With `room` levels left, a call ends with what `expression` gives and a chain of operators with
what `chain` gives, and the counter is back where it was when the call was made. -/
theorem enter_chain_ends (room : Nat) : ∀ depth, depth + room = limit.toNat →
    EnterEnds limit eof depth room ∧ ChainEnds limit eof depth room := by
  induction room with
  | zero => exact fun depth full => ⟨enterEnds_full full, chainEnds_full full⟩
  | succ room ih =>
    intro depth full
    have more : depth < limit.toNat := by omega
    -- whatever is inside the next level starts one level deeper and has one level less
    obtain ⟨inner, others⟩ := ih (depth + 1) (by omega)
    constructor
    · intro least lexemes waiting
      rw [expression]
      exact ReflTransGen.head (enter_step more lexemes)
        (operand_steps inner others ⟨depth, least, true⟩ lexemes waiting)
    · refine chainEnds_of_binds fun call left operator rest waiting binds => ?_
      rw [chain, if_pos binds]
      exact ReflTransGen.head (chain_step binds more left rest)
        (nested_steps inner others call (.binary left operator)
          operator.kind.precedence rest waiting)

end Calls

end Frontend.Parser
