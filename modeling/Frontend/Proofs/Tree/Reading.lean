import Frontend.Parser.Expression

/-!
# Trees as readings of lexemes

* `Expr.tokens`: the tokens of an expression, in the order in which they are written.
* `Reads e ls`: the expression `e`, with its spans, is a way to read the lexemes `ls`.
* `Expr.Graded`: everywhere in the expression the operators are grouped by strength, and those of
  one strength to the left.
* `Expr.cost`: how many levels of nesting are open at the deepest place.

None of them mentions the parser.
-/

set_option autoImplicit false

namespace Frontend

/-! ## Strengths -/

/-- The kinds that stand between two operands. -/
def Kind.isBinary : Kind → Bool
  | .plus | .minus | .asterisk | .slash | .eq | .notEq | .lt | .gt => true
  | _ => false

/-- The kinds that stand before an operand. -/
def Kind.isUnary : Kind → Bool
  | .bang | .minus => true
  | _ => false

namespace Precedence

instance : LE Precedence := ⟨fun p q => p.rank ≤ q.rank⟩

instance (p q : Precedence) : Decidable (p ≤ q) := inferInstanceAs (Decidable (p.rank ≤ q.rank))

theorem lt_iff {p q : Precedence} : p < q ↔ p.rank < q.rank := Iff.rfl

theorem not_lt {p q : Precedence} : ¬ p < q ↔ q ≤ p := Nat.not_lt

end Precedence

theorem Kind.isBinary_iff (kind : Kind) : kind.isBinary ↔ Precedence.lowest < kind.precedence := by
  cases kind <;> decide

theorem Kind.precedence_le_lowest_iff (kind : Kind) :
    kind.precedence ≤ .lowest ↔ kind.isBinary = false := by
  rw [← Precedence.not_lt, ← Kind.isBinary_iff, Bool.not_eq_true]

theorem Kind.precedence_lt_unary (kind : Kind) : kind.precedence < .unary := by
  cases kind <;> decide

namespace Expr

/-- The strength of the operator at the root, if it stands between two operands. -/
def strength? : Expr → Option Precedence
  | .binary token .. => some token.kind.precedence
  | _ => none

/-! ## Tokens, grouping and nesting -/

/-- The tokens of an expression, in the order in which they are written. -/
def tokens : Expr → List Token
  | .identifier node => [node.token]
  | .integer token _ _ => [token]
  | .unary token _ operand _ => token :: operand.tokens
  | .binary token left _ right _ => left.tokens ++ token :: right.tokens

/-- To the left of an operator stands nothing looser, to the right nothing as loose, and after a
unary operator nothing with an operator between operands. -/
def Graded : Expr → Prop
  | .identifier _ => True
  | .integer .. => True
  | .unary _ _ operand _ => operand.strength? = none ∧ operand.Graded
  | .binary token left _ right _ =>
    (∀ p, left.strength? = some p → token.kind.precedence ≤ p) ∧
      (∀ p, right.strength? = some p → token.kind.precedence < p) ∧ left.Graded ∧ right.Graded

instance decidableGraded : (e : Expr) → Decidable e.Graded
  | .identifier _ => isTrue trivial
  | .integer .. => isTrue trivial
  | .unary _ _ operand _ =>
    have := decidableGraded operand
    inferInstanceAs (Decidable (operand.strength? = none ∧ operand.Graded))
  | .binary token left _ right _ =>
    have := decidableGraded left
    have := decidableGraded right
    inferInstanceAs (Decidable ((∀ p ∈ left.strength?, token.kind.precedence ≤ p) ∧
      (∀ p ∈ right.strength?, token.kind.precedence < p) ∧ left.Graded ∧ right.Graded))

/-- The number of operators in the chain of left operands that the expression is the end of. -/
def chained : Expr → Nat
  | .binary _ left _ _ _ => left.chained + 1
  | _ => 0

/-- The number of levels that are open at the deepest place of an expression: one for the expression
itself and for each operand, and in a chain of left operands one for each operator up to the
place. -/
def cost : Expr → Nat
  | .identifier _ => 1
  | .integer .. => 1
  | .unary _ _ operand _ => 1 + operand.cost
  | .binary _ left _ right _ => max left.cost (1 + (left.chained + 1) + right.cost)

theorem cost_pos (e : Expr) : 0 < e.cost := by
  induction e with
  | identifier node => exact Nat.one_pos
  | integer token value span => exact Nat.one_pos
  | unary token operator operand span ih =>
    rw [cost]
    omega
  | binary token left operator right span ihl ihr =>
    rw [cost]
    omega

/-! A chain of left operands `x₀ ∘ x₁ ∘ … ∘ xₖ` costs the most of what `x₀` costs, of `1 + k`, and
of `1 + j` more than `xⱼ` costs. -/

/-- The first operand of a chain of left operands, and the right operands in order. -/
def spine : Expr → Expr × List Expr
  | .binary _ left _ right _ => (left.spine.1, left.spine.2 ++ [right])
  | e => (e, [])

/-- The most of what the operands cost, each with the levels that are open before it. -/
def spineCost (operands : List Expr) : Nat :=
  (operands.zipIdx 1).foldr (fun operand most => max (1 + operand.2 + operand.1.cost) most) 0

theorem spineCost_append_singleton (operands : List Expr) (last : Expr) :
    spineCost (operands ++ [last]) =
      max (spineCost operands) (1 + (operands.length + 1) + last.cost) := by
  have most : ∀ (l : List (Expr × Nat)) (n : Nat),
      l.foldr (fun operand most => max (1 + operand.2 + operand.1.cost) most) n =
        max (l.foldr (fun operand most => max (1 + operand.2 + operand.1.cost) most) 0) n := by
    intro l n
    induction l with
    | nil => simp
    | cons operand l ih =>
      rw [List.foldr_cons, List.foldr_cons, ih, Nat.max_assoc]
  rw [spineCost, List.zipIdx_append, List.foldr_append, most, spineCost]
  simp [Nat.add_comm]

theorem length_spine (e : Expr) : e.spine.2.length = e.chained := by
  induction e with
  | identifier node => rfl
  | integer token value span => rfl
  | unary token operator operand span ih => rfl
  | binary token left operator right span ihl ihr =>
    rw [spine, chained, List.length_append, ihl, List.length_singleton]

theorem cost_eq_spine (e : Expr) (chain : e.strength? ≠ none) :
    e.cost = max (max e.spine.1.cost (1 + e.spine.2.length)) (spineCost e.spine.2) := by
  have flat : ∀ e : Expr, e.cost = max e.spine.1.cost (spineCost e.spine.2) := by
    intro e
    induction e with
    | identifier node => rfl
    | integer token value span => rfl
    | unary token operator operand span ih => exact (Nat.max_eq_left (Nat.zero_le _)).symm
    | binary token left operator right span ihl ihr =>
      rw [cost, spine, spineCost_append_singleton, length_spine, ihl, Nat.max_assoc]
  cases e with
  | binary token left operator right span =>
    -- the last operand costs something, so the number of operators is never the most
    have := right.cost_pos
    rw [flat, spine, spineCost_append_singleton, List.length_append, List.length_singleton]
    omega
  | _ => exact absurd rfl chain

/-- Everything in the expression that stands between two operands is stronger than `least`. -/
def Above (least : Precedence) (e : Expr) : Prop := ∀ p, e.strength? = some p → least < p

end Expr

/-! ## Nodes as the parser builds them -/

namespace Parser

variable (left right operand : Expr) (operator : Lexeme)

@[simp] theorem chained_unaryOf : (unaryOf operator operand).chained = 0 := rfl

@[simp] theorem chained_binaryOf : (binaryOf left operator right).chained = left.chained + 1 := rfl

@[simp] theorem cost_unaryOf : (unaryOf operator operand).cost = 1 + operand.cost := rfl

@[simp] theorem cost_binaryOf : (binaryOf left operator right).cost =
    max left.cost (1 + (left.chained + 1) + right.cost) := rfl

theorem graded_unaryOf :
    (unaryOf operator operand).Graded ↔ operand.strength? = none ∧ operand.Graded := Iff.rfl

theorem graded_binaryOf : (binaryOf left operator right).Graded ↔
    (∀ p, left.strength? = some p → operator.kind.precedence ≤ p) ∧
      (∀ p, right.strength? = some p → operator.kind.precedence < p) ∧
        left.Graded ∧ right.Graded := Iff.rfl

end Parser

/-! ## Readings -/

/-- The largest signed 64-bit word. -/
def Text.int64Max : Nat := 9223372036854775807

theorem int64?_eq_some_iff {digits : List Char} {value : Int64} :
    Text.int64? digits = some value ↔
      Text.decimalValue digits ≤ Text.int64Max ∧ value.toInt = Text.decimalValue digits := by
  unfold Text.int64? Text.int64Bound Text.int64Max
  constructor
  · intro h
    dsimp only at h
    split at h
    · rename_i small
      cases h
      exact ⟨by omega, Int64.toInt_ofNat_of_lt small⟩
    · cases h
  · rintro ⟨small, hvalue⟩
    rw [if_pos (by omega), Option.some.injEq, ← Int64.toInt_inj, hvalue]
    exact Int64.toInt_ofNat_of_lt (by omega)

/-- An expression with its spans is a way to read a list of lexemes. -/
inductive Reads : Expr → List Lexeme → Prop
  | identifier {l : Lexeme} (kind : l.kind = .ident) : Reads (.identifier (Parser.nameOf l)) [l]
  | integer {l : Lexeme} {value : Int64} (kind : l.kind = .int)
      (range : Text.int64? l.literal.toList = some value) :
    Reads (.integer l.token value l.span) [l]
  | unary {operator : Lexeme} {operand : Expr} {ls : List Lexeme} (kind : operator.kind.isUnary)
      (inner : Reads operand ls) : Reads (Parser.unaryOf operator operand) (operator :: ls)
  | binary {left right : Expr} {operator : Lexeme} {ls rs : List Lexeme}
      (kind : operator.kind.isBinary) (before : Reads left ls) (after : Reads right rs) :
      Reads (Parser.binaryOf left operator right) (ls ++ operator :: rs)

namespace Reads

variable {e : Expr} {ls : List Lexeme}

theorem tokens (h : Reads e ls) : e.tokens = ls.map (·.token) := by
  induction h with
  | identifier kind => rfl
  | integer kind range => rfl
  | unary kind inner ih => rw [Parser.unaryOf, Expr.tokens, ih, List.map_cons]
  | binary kind before after ihl ihr =>
    rw [Parser.binaryOf, Expr.tokens, ihl, ihr, List.map_append, List.map_cons]

theorem ne_nil (h : Reads e ls) : ls ≠ [] := by
  cases h <;> simp

theorem above_lowest (h : Reads e ls) : e.Above .lowest := by
  intro p hp
  cases h with
  | identifier kind => cases hp
  | integer kind range => cases hp
  | unary kind inner => cases hp
  | @binary left right operator ls rs kind before after =>
    cases hp
    exact (Kind.isBinary_iff operator.kind).mp kind

theorem head_kind (h : Reads e ls) : ∀ l, ls.head? = some l →
    l.kind = .ident ∨ l.kind = .int ∨ l.kind.isUnary := by
  induction h with
  | identifier kind =>
    intro l hl
    cases hl
    exact .inl kind
  | integer kind range =>
    intro l hl
    cases hl
    exact .inr (.inl kind)
  | unary kind inner ih =>
    intro l hl
    cases hl
    exact .inr (.inr kind)
  | binary kind before after ihl ihr =>
    intro l hl
    obtain ⟨first, tail, hls⟩ := List.exists_cons_of_ne_nil before.ne_nil
    rw [hls] at hl ihl
    exact ihl l hl

theorem not_semicolon (h : Reads e ls) : ∀ l ∈ ls, l.kind ≠ .semicolon := by
  induction h with
  | identifier kind => simp [kind]
  | integer kind range => simp [kind]
  | unary kind inner ih =>
    intro l hl
    rcases List.mem_cons.mp hl with rfl | hl
    · intro hsemi
      simp [hsemi, Kind.isUnary] at kind
    · exact ih l hl
  | binary kind before after ihl ihr =>
    intro l hl
    rcases List.mem_append.mp hl with hl | hl
    · exact ihl l hl
    · rcases List.mem_cons.mp hl with rfl | hl
      · intro hsemi
        simp [hsemi, Kind.isBinary] at kind
      · exact ihr l hl

theorem span_start_mem (h : Reads e ls) : ∃ l ∈ ls, e.span.start = l.span.start := by
  induction h with
  | @identifier l kind => exact ⟨l, List.mem_singleton_self l, rfl⟩
  | @integer l value kind range => exact ⟨l, List.mem_singleton_self l, rfl⟩
  | @unary operator operand ls kind inner ih =>
    change ∃ l ∈ _, (operator.span.merge operand.span).start = _
    rw [Span.merge]
    split
    · exact ⟨operator, List.mem_cons_self, rfl⟩
    · obtain ⟨l, hl, hstart⟩ := ih
      exact ⟨l, List.mem_cons_of_mem operator hl, hstart⟩
  | @binary left right operator ls rs kind before after ihl ihr =>
    change ∃ l ∈ _, (left.span.merge right.span).start = _
    rw [Span.merge]
    split
    · obtain ⟨l, hl, hstart⟩ := ihl
      exact ⟨l, List.mem_append_left _ hl, hstart⟩
    · obtain ⟨l, hl, hstart⟩ := ihr
      exact ⟨l, List.mem_append_right _ (List.mem_cons_of_mem operator hl), hstart⟩

end Reads

end Frontend
