import Frontend.Proofs.Tree.Shape

/-!
# Heights of trees

The nesting limit counts the levels that are open at one time (`Expr.cost`). A level that an operand
has opened is closed again when the operand is done, so a tree can be taller than its cost: the
first operand of a chain may be as tall as the limit allows, with the whole chain on top of it, and
so may be the right operand of a tighter operator. `tallest` says how much this gives for each
number of strengths, `height_le_tallest` that it is a bound, and the expressions `highest` reach it.
-/

set_option autoImplicit false

namespace Frontend

/-- The most nodes on a way from the root to a leaf. -/
def Expr.height : Expr → Nat
  | .identifier _ => 1
  | .integer .. => 1
  | .unary _ _ operand _ => 1 + operand.height
  | .binary _ left _ right _ => 1 + max left.height right.height

/-- The largest height that a cost of `n` allows where operators between operands have one of the
`k` tightest strengths. -/
def tallest : Nat → Nat → Nat
  | 0, n => n
  | k + 1, n => n - 2 + max n (tallest k (n - 2))

theorem tallest_four {n : Nat} (h : 10 ≤ n) : tallest 4 n = 5 * n - 26 := by
  simp only [tallest]
  omega

namespace Expr

theorem height_pos (e : Expr) : 0 < e.height := by
  cases e <;> simp only [height] <;> omega

theorem height_bare (e : Expr) : e.bare.height = e.height := by
  induction e with
  | identifier node => rfl
  | integer token value span => rfl
  | unary token operator operand span ih => rw [bare, height, height, ih]
  | binary token left operator right span ihl ihr => rw [bare, height, height, ihl, ihr]

/-! ## The bound -/

/-- The operator at the root has one of the `k` tightest strengths if it stands between two
operands. -/
def Within (k : Nat) (e : Expr) : Prop :=
  ∀ p, e.strength? = some p → Precedence.unary.rank ≤ p.rank + k

variable {e : Expr}

theorem Above.within (h : e.Above .lowest) : e.Within 4 := by
  intro p hp
  have above : 0 < p.rank := h p hp
  change 5 ≤ p.rank + 4
  omega

theorem Within.strength?_eq_none (h : e.Within 0) : e.strength? = none := by
  cases e with
  | binary token left operator right span =>
    have loose := Precedence.lt_iff.mp token.kind.precedence_lt_unary
    exact absurd (h _ rfl) (Nat.not_le.mpr loose)
  | _ => rfl

theorem height_eq_cost (graded : e.Graded) (plain : e.strength? = none) : e.height = e.cost := by
  induction e with
  | identifier node => rfl
  | integer token value span => rfl
  | unary token operator operand span ih => rw [height, cost, ih graded.2 graded.1]
  | binary token left operator right span ihl ihr => cases plain

theorem chained_add_two_le (chain : e.strength? ≠ none) : e.chained + 2 ≤ e.cost := by
  cases e with
  | binary token left operator right span =>
    have := right.cost_pos
    rw [chained, cost]
    omega
  | _ => exact absurd rfl chain

theorem height_le_of_chained {k n : Nat} (graded : e.Graded) (fits : e.cost ≤ n)
    (within : e.Within k)
    (bound : ∀ j, e.Within (j + 1) → e.height ≤ e.chained + max n (tallest j (n - 2))) :
    e.height ≤ tallest k n := by
  cases k with
  | zero =>
    rw [height_eq_cost graded within.strength?_eq_none, tallest]
    exact fits
  | succ j =>
    rw [tallest]
    by_cases plain : e.strength? = none
    · have := height_eq_cost graded plain
      omega
    · have := chained_add_two_le plain
      have := bound j within
      omega

theorem height_le_chained {j n : Nat} (graded : e.Graded) (fits : e.cost ≤ n)
    (within : e.Within (j + 1)) :
    e.height ≤ e.chained + max n (tallest j (n - 2)) := by
  induction e generalizing j n with
  | binary token left operator right span ihl ihr =>
    obtain ⟨weakLeft, weakRight, gradedLeft, gradedRight⟩ := graded
    have root : Precedence.unary.rank ≤ token.kind.precedence.rank + (j + 1) := within _ rfl
    rw [cost] at fits
    rw [height, chained]
    -- the chain goes on to the left, and one operator of it stands above the left operand
    have onLeft : left.height ≤ left.chained + max n (tallest j (n - 2)) := by
      apply ihl gradedLeft (by omega)
      intro p hp
      have : token.kind.precedence.rank ≤ p.rank := weakLeft p hp
      omega
    -- a right operand has tighter operators only, and the chain keeps two levels or more
    have onRight : right.height ≤ tallest j (n - 2) := by
      have cheap : right.cost ≤ n - 2 := by omega
      refine height_le_of_chained gradedRight cheap ?_ fun i deeper => ihr gradedRight cheap deeper
      intro p hp
      have := Precedence.lt_iff.mp (weakRight p hp)
      omega
    omega
  | _ =>
    have := height_eq_cost graded rfl
    omega

theorem height_le_tallest {k n : Nat} (graded : e.Graded) (fits : e.cost ≤ n)
    (within : e.Within k) :
    e.height ≤ tallest k n :=
  height_le_of_chained graded fits within fun _ deeper => height_le_chained graded fits deeper

/-! ## Expressions that reach it -/

/-- The length of the tokens of an expression, with one more for each of them. -/
def width : Expr → Nat
  | .identifier node => node.token.literal.toList.length + 1
  | .integer token _ _ => token.literal.toList.length + 1
  | .unary token _ operand _ => token.literal.toList.length + 1 + operand.width
  | .binary token left _ right _ => left.width + (token.literal.toList.length + 1 + right.width)

def letter : Expr := .identifier ⟨⟨.ident, "a"⟩, "a", .placeholder⟩

/-- A name after `n` unary operators. -/
def negated : Nat → Expr
  | 0 => letter
  | n + 1 => .unary ⟨.bang, "!"⟩ "!" (negated n) .placeholder

def joined (kind : Kind) (left right : Expr) : Expr :=
  .binary ⟨kind, kind.name⟩ left kind.name right .placeholder

/-- A chain of `n` operators of a kind over an expression, each with a name to the right. -/
def linked (kind : Kind) (first : Expr) : Nat → Expr
  | 0 => first
  | n + 1 => joined kind (linked kind first n) letter

def raised (kind : Kind) (e : Expr) (n : Nat) : Expr := linked kind (joined kind letter e) n

/-- A chain for each strength, where the tightest one starts with unary operators and each of the
others has the tighter ones in its first right operand. -/
def highest (n : Nat) : Expr :=
  raised .eq (raised .lt (raised .plus (linked .asterisk (negated (n + 1)) n) (n + 1)) (n + 3))
    (n + 5)

theorem height_negated (n : Nat) : (negated n).height = n + 1 := by
  induction n with
  | zero => rfl
  | succ n ih =>
    rw [negated, height, ih]
    omega

theorem height_linked (kind : Kind) (first : Expr) (n : Nat) :
    (linked kind first n).height = first.height + n := by
  induction n with
  | zero => rfl
  | succ n ih =>
    have := first.height_pos
    rw [linked, joined, height, ih, letter, height]
    omega

theorem height_raised (kind : Kind) (e : Expr) (n : Nat) :
    (raised kind e n).height = e.height + n + 1 := by
  have := e.height_pos
  rw [raised, height_linked, joined, height, letter, height]
  omega

theorem height_highest (n : Nat) : (highest n).height = 5 * n + 14 := by
  rw [highest, height_raised, height_raised, height_raised, height_linked, height_negated]
  omega

theorem chained_linked (kind : Kind) (first : Expr) (n : Nat) :
    (linked kind first n).chained = first.chained + n := by
  induction n with
  | zero => rfl
  | succ n ih => rw [linked, joined, chained, ih, Nat.add_assoc]

theorem width_joined {kind : Kind} (binary : kind.isBinary) (left right : Expr) :
    (joined kind left right).width ≤ left.width + right.width + 3 := by
  have mark : kind.name.toList.length ≤ 2 := by
    revert binary
    cases kind <;> decide
  change left.width + (kind.name.toList.length + 1 + right.width) ≤ _
  omega

/-- An expression that can be written down and read back with `room` levels, as the right operand of
any operator up to `least`. -/
structure Tower (least : Precedence) (room : Nat) (e : Expr) : Prop where
  formed : e.Formed
  graded : e.Graded
  above : e.Above least
  fits : e.cost ≤ room
  narrow : e.width ≤ 5 * e.height

theorem tower_negated (least : Precedence) (n : Nat) : Tower least (n + 1) (negated n) := by
  induction n with
  | zero => exact ⟨by decide, trivial, nofun, Nat.le_refl 1, by decide⟩
  | succ n ih =>
    have plain : (negated n).strength? = none := by
      cases n <;> rfl
    refine ⟨⟨rfl, rfl, rfl, ih.formed⟩, ⟨plain, ih.graded⟩, nofun, ?_, ?_⟩
    · have := ih.fits
      rw [negated, cost]
      omega
    · have := ih.narrow
      change 1 + 1 + (negated n).width ≤ 5 * (1 + (negated n).height)
      omega

variable {least : Precedence} {kind : Kind}

theorem Tower.joined {left right : Expr} {room inner : Nat} (binary : kind.isBinary)
    (tight : least < kind.precedence) (hl : Tower least room left)
    (weak : ∀ p, left.strength? = some p → kind.precedence ≤ p)
    (hr : Tower kind.precedence inner right) (enough : left.chained + inner + 2 ≤ room)
    (slim : left.width + right.width ≤ 5 * max left.height right.height + 2) :
    Tower least room (joined kind left right) where
  formed := ⟨binary, rfl, rfl, hl.formed, hr.formed⟩
  graded := ⟨weak, hr.above, hl.graded, hr.graded⟩
  above p hp := by
    cases hp
    exact tight
  fits := by
    have := hl.fits
    have := hr.fits
    rw [Expr.joined, cost]
    omega
  narrow := by
    have wide := width_joined binary left right
    have tall : (Expr.joined kind left right).height = 1 + max left.height right.height := rfl
    omega

theorem weak_linked {first : Expr} (weak : ∀ p, first.strength? = some p → kind.precedence ≤ p)
    (n : Nat) :
    ∀ p, (linked kind first n).strength? = some p → kind.precedence ≤ p := by
  cases n with
  | zero => exact weak
  | succ n =>
    intro p hp
    cases hp
    exact Nat.le_refl _

theorem Tower.linked {first : Expr} {room n : Nat} (binary : kind.isBinary)
    (tight : least < kind.precedence) (h : Tower least room first)
    (weak : ∀ p, first.strength? = some p → kind.precedence ≤ p)
    (enough : first.chained + n + 2 ≤ room) :
    Tower least room (linked kind first n) := by
  induction n with
  | zero => exact h
  | succ n ih =>
    have below := ih (by omega)
    have count := chained_linked kind first n
    have narrow := below.narrow
    have wide : letter.width = 2 := by decide
    exact below.joined binary tight (weak_linked weak n)
      (tower_negated kind.precedence 0) (by omega)
      (by omega)

theorem Tower.raised {e : Expr} {n : Nat} (binary : kind.isBinary) (tight : least < kind.precedence)
    (h : Tower kind.precedence (n + 1) e) : Tower least (n + 3) (raised kind e n) := by
  have narrow := h.narrow
  have wide : letter.width = 2 := by decide
  have first : Tower least (n + 3) letter :=
    { tower_negated least 0 with fits := Nat.le_add_left 1 (n + 2) }
  have base : Tower least (n + 3) (Expr.joined kind letter e) :=
    first.joined binary tight nofun h (by change 0 + _ + 2 ≤ _; omega) (by omega)
  have root : (Expr.joined kind letter e).chained = 1 := rfl
  refine base.linked binary tight ?_ (by omega)
  intro p hp
  cases hp
  exact Nat.le_refl _

theorem tower_highest (n : Nat) : Tower .lowest (n + 8) (highest n) := by
  have product : Tower .sum (n + 2) (linked .asterisk (negated (n + 1)) n) := by
    refine (tower_negated .sum (n + 1)).linked rfl (by decide) nofun ?_
    change 0 + n + 2 ≤ n + 2
    omega
  have sum : Tower .order (n + 4) (Expr.raised .plus _ (n + 1)) := product.raised rfl (by decide)
  have order : Tower .equality (n + 6) (Expr.raised .lt _ (n + 3)) := sum.raised rfl (by decide)
  exact order.raised rfl (by decide)

end Expr

end Frontend
