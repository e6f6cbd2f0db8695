import Frontend.Proofs.Parser.Expression

/-!
# Chains of operands

What can be written as an expression is a chain of operands with operators between them, and which
operators are where says nothing about whether there is a reading: every chain has a graded one
(`IsChain.exists_reads`). How deep the parser has to go for it can be told without the tree.
`nesting` goes along the chain with the calls that are open, each with its levels, and finds the
cost of the reading (`nesting_of_reads`).
-/

set_option autoImplicit false

namespace Frontend.Parser

/-! ## Chains -/

/-- Any number of unary operators, then a name or a number that fits into 64 bits with sign. -/
inductive IsOperand : List Lexeme → Prop
  | name {l : Lexeme} (kind : l.kind = .ident) : IsOperand [l]
  | number {l : Lexeme} (kind : l.kind = .int)
      (range : Text.decimalValue l.literal.toList ≤ Text.int64Max) : IsOperand [l]
  | signed {sign : Lexeme} {ls : List Lexeme} (kind : sign.kind.isUnary) (inner : IsOperand ls) :
      IsOperand (sign :: ls)

/-- Operands with operators between them. -/
inductive IsChain : List Lexeme → Prop
  | operand {ls : List Lexeme} (only : IsOperand ls) : IsChain ls
  | link {ls rs : List Lexeme} {operator : Lexeme} (before : IsChain ls)
      (kind : operator.kind.isBinary) (last : IsOperand rs) : IsChain (ls ++ operator :: rs)

theorem IsChain.signed {sign : Lexeme} {ls : List Lexeme} (kind : sign.kind.isUnary)
    (chain : IsChain ls) : IsChain (sign :: ls) := by
  induction chain with
  | operand only => exact .operand (.signed kind only)
  | link _ infixed last ih => exact .link ih infixed last

theorem IsChain.append {ls rs : List Lexeme} {operator : Lexeme} (before : IsChain ls)
    (kind : operator.kind.isBinary) (after : IsChain rs) : IsChain (ls ++ operator :: rs) := by
  induction after with
  | operand only => exact .link before kind only
  | @link rs last operator' _ infixed only ih =>
    have regroup : ls ++ operator :: (rs ++ operator' :: last) =
        (ls ++ operator :: rs) ++ operator' :: last := by simp
    rw [regroup]
    exact .link ih infixed only

theorem isChain_of_reads {e : Expr} {block : List Lexeme} (reads : Reads e block) :
    IsChain block := by
  induction reads with
  | identifier kind => exact .operand (.name kind)
  | integer kind range => exact .operand (.number kind (int64?_eq_some_iff.mp range).1)
  | unary kind _ ih => exact .signed kind ih
  | binary kind _ _ ihl ihr => exact .append ihl kind ihr

/-! ## Readings of chains -/

theorem IsOperand.exists_reads {ls : List Lexeme} (operand : IsOperand ls) :
    ∃ e, Reads e ls ∧ e.Graded ∧ e.strength? = none := by
  induction operand with
  | name kind => exact ⟨_, .identifier kind, trivial, rfl⟩
  | @number l kind range =>
    have value : (Int64.ofNat (Text.decimalValue l.literal.toList)).toInt =
        Text.decimalValue l.literal.toList :=
      Int64.toInt_ofNat_of_lt (Nat.lt_succ_of_le range)
    exact ⟨_, .integer kind (int64?_eq_some_iff.mpr ⟨range, value⟩), trivial, rfl⟩
  | @signed sign ls kind _ ih =>
    obtain ⟨e, reads, graded, single⟩ := ih
    exact ⟨unaryOf sign e, .unary kind reads, ⟨single, graded⟩, rfl⟩

/-- One more operator and operand, taken in on the right where the strength of the operator wants
it. -/
theorem exists_reads_link {e operand : Expr} {ls rs : List Lexeme} {operator : Lexeme}
    (reads : Reads e ls) (graded : e.Graded) (kind : operator.kind.isBinary)
    (last : Reads operand rs) (gradedLast : operand.Graded) (single : operand.strength? = none) :
    ∃ e', Reads e' (ls ++ operator :: rs) ∧ e'.Graded ∧
      ∀ p, e'.strength? = some p → p = operator.kind.precedence ∨ e.strength? = some p := by
  -- what is at most as strong as the root takes the whole expression as its left operand
  have onTop : ∀ {e : Expr} {ls : List Lexeme}, Reads e ls → e.Graded →
      (∀ p, e.strength? = some p → operator.kind.precedence ≤ p) →
        ∃ e', Reads e' (ls ++ operator :: rs) ∧ e'.Graded ∧
          ∀ p, e'.strength? = some p → p = operator.kind.precedence ∨ e.strength? = some p := by
    intro e ls reads graded weak
    refine ⟨binaryOf e operator operand, .binary kind reads last, ?_, ?_⟩
    · exact ⟨weak, above_of_strength? single _, graded, gradedLast⟩
    · intro p hp
      cases hp
      exact .inl rfl
  induction reads with
  | identifier kind => exact onTop (.identifier kind) graded nofun
  | integer kind range => exact onTop (.integer kind range) graded nofun
  | unary kind inner => exact onTop (.unary kind inner) graded nofun
  | @binary left right root ls rs' infixed before after ihl ihr =>
    by_cases weak : operator.kind.precedence ≤ root.kind.precedence
    · apply onTop (.binary infixed before after) graded
      intro p hp
      cases hp
      exact weak
    · obtain ⟨hleft, hright, gradedLeft, gradedRight⟩ := (graded_binaryOf _ _ _).mp graded
      obtain ⟨right', readsRight, gradedRight, strong⟩ := ihr gradedRight
      refine ⟨binaryOf left root right', ?_, ⟨hleft, ?_, gradedLeft, gradedRight⟩, ?_⟩
      · have all := Reads.binary infixed before readsRight
        simpa using all
      · intro p hp
        rcases strong p hp with rfl | hp
        · exact Nat.lt_of_not_le weak
        · exact hright p hp
      · intro p hp
        exact .inr hp

/-- Every chain has a graded reading. -/
theorem IsChain.exists_reads {block : List Lexeme} (chain : IsChain block) :
    ∃ e, Reads e block ∧ e.Graded := by
  induction chain with
  | operand only =>
    obtain ⟨e, reads, graded, -⟩ := only.exists_reads
    exact ⟨e, reads, graded⟩
  | link _ kind last ih =>
    obtain ⟨e, reads, graded⟩ := ih
    obtain ⟨operand, readsLast, gradedLast, single⟩ := last.exists_reads
    obtain ⟨e', reads', graded', -⟩ :=
      exists_reads_link reads graded kind readsLast gradedLast single
    exact ⟨e', reads', graded'⟩

/-! ## Nesting -/

/-- A call that is open: the operators chained in it are stronger than `least`, and with `levels` it
counts once for itself and once for each operator chained so far. -/
structure OpenCall where
  least : Precedence
  levels : Nat

/-- The levels of all the open calls. -/
def depth : List OpenCall → Nat
  | [] => 0
  | call :: outer => call.levels + depth outer

mutual

/-- The most levels that are open at a name or a number of a chain, from an operand on. The open
calls are listed from the inside out. -/
def nestingFrom (calls : List OpenCall) : List Lexeme → Nat
  | [] => 0
  | l :: rest =>
    if l.kind.isUnary then nestingFrom (⟨.unary, 1⟩ :: calls) rest
    else max (depth calls) (nestingAfter calls rest)

/-- The same, right after an operand. The next operator is chained in the innermost call that takes
it, and opens a call for its right operand; the calls inside that one are over. -/
def nestingAfter (calls : List OpenCall) : List Lexeme → Nat
  | [] => 0
  | operator :: rest =>
    match calls.dropWhile (operator.kind.precedence ≤ ·.least) with
    | [] => 0
    | call :: outer =>
      nestingFrom (⟨operator.kind.precedence, 1⟩ ::
        { call with levels := call.levels + 1 } :: outer) rest

end

/-- The levels of nesting that a chain needs. -/
def nesting (block : List Lexeme) : Nat := nestingFrom [⟨.lowest, 1⟩] block

theorem nestingFrom_atom {l : Lexeme} (kind : l.kind.isUnary = false) (calls : List OpenCall)
    (rest : List Lexeme) :
    nestingFrom calls (l :: rest) = max (depth calls) (nestingAfter calls rest) := by
  rw [nestingFrom, if_neg (by rw [kind]; decide)]

theorem nestingAfter_of_stops {call : OpenCall} {rest : List Lexeme} (stops : Stops call.least rest)
    (calls : List OpenCall) : nestingAfter (call :: calls) rest = nestingAfter calls rest := by
  cases rest with
  | nil => rw [nestingAfter, nestingAfter]
  | cons operator rest =>
    rw [nestingAfter, nestingAfter, List.dropWhile_cons_of_pos (by simpa using stops_cons.mp stops)]

theorem nestingAfter_of_lt {call : OpenCall} {operator : Lexeme}
    (takes : call.least < operator.kind.precedence) (outer : List OpenCall) (rest : List Lexeme) :
    nestingAfter (call :: outer) (operator :: rest) =
      nestingFrom (⟨operator.kind.precedence, 1⟩ :: ⟨call.least, call.levels + 1⟩ :: outer)
        rest := by
  have kept : ¬ operator.kind.precedence ≤ call.least := Nat.not_le_of_lt takes
  rw [nestingAfter, List.dropWhile_cons_of_neg (by simpa using kept)]

/-- Along a graded reading, the levels go up by the cost of the reading, and the call that it is
read in counts the operators of its chain. -/
theorem nestingFrom_append {e : Expr} {block : List Lexeme} (reads : Reads e block)
    (graded : e.Graded) (least : Precedence) (above : e.Above least) (levels : Nat)
    (outer : List OpenCall) (rest : List Lexeme) (closed : Closed e rest) :
    nestingFrom (⟨least, levels + 1⟩ :: outer) (block ++ rest) =
      max (levels + depth outer + e.cost)
        (nestingAfter (⟨least, levels + 1 + e.chained⟩ :: outer) rest) := by
  induction reads generalizing least levels outer rest with
  | identifier kind =>
    rw [List.singleton_append, nestingFrom_atom (by rw [kind]; rfl), depth]
    simp only [Expr.cost, Expr.chained]
    congr 1
    omega
  | integer kind range =>
    rw [List.singleton_append, nestingFrom_atom (by rw [kind]; rfl), depth]
    simp only [Expr.cost, Expr.chained]
    congr 1
    omega
  | @unary operator inner ls kind reads ih =>
    obtain ⟨single, graded⟩ := (graded_unaryOf _ _).mp graded
    have inside := ih graded .unary (above_of_strength? single .unary) 0
      (⟨least, levels + 1⟩ :: outer) rest (closed_of_strength? single rest)
    rw [nestingAfter_of_stops (stops_unary rest), depth] at inside
    rw [List.cons_append, nestingFrom, if_pos kind, inside, cost_unaryOf, chained_unaryOf]
    congr 1
    dsimp only
    omega
  | @binary left right operator ls rs kind before after ihl ihr =>
    obtain ⟨hleft, hright, gradedLeft, gradedRight⟩ := (graded_binaryOf _ _ _).mp graded
    have hleast : least < operator.kind.precedence := above _ rfl
    have stops : Stops operator.kind.precedence rest := closed _ rfl
    have onLeft := ihl gradedLeft least (fun p hp => Nat.lt_of_lt_of_le hleast (hleft p hp)) levels
      outer (operator :: (rs ++ rest)) (fun p hp => stops_cons.mpr (hleft p hp))
    have onRight := ihr gradedRight operator.kind.precedence hright 0
      (⟨least, levels + 1 + left.chained + 1⟩ :: outer) rest
      (fun p hp => stops.mono (Nat.le_of_lt (hright p hp)))
    rw [nestingAfter_of_stops stops, depth] at onRight
    rw [List.append_assoc, List.cons_append, onLeft, nestingAfter_of_lt hleast, onRight,
      cost_binaryOf, chained_binaryOf, ← Nat.max_assoc]
    congr 1
    dsimp only
    omega

/-- The nesting of a chain is the cost of its graded reading. -/
theorem nesting_of_reads {e : Expr} {block : List Lexeme} (reads : Reads e block)
    (graded : e.Graded) :
    nesting block = e.cost := by
  have whole := nestingFrom_append reads graded .lowest reads.above_lowest 0 [] []
    (fun p _ l hl => by cases hl)
  rw [List.append_nil, nestingAfter] at whole
  rw [nesting, whole]
  simp [depth]

end Frontend.Parser
