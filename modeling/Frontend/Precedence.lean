import Frontend.Token.Kind

/-!
# Binding strength of operators

From comparison for equality, which binds loosest, over order, sum and product to the unary
operators. A kind that is no binary operator has the lowest strength and so ends an expression.
-/

set_option autoImplicit false

namespace Frontend

/-- How tightly an operator binds, loosest first. -/
inductive Precedence where
  | lowest
  | equality
  | order
  | sum
  | product
  | unary
  deriving DecidableEq, Repr

namespace Precedence

/-- The place of a strength in the order from loosest to tightest. -/
def rank : Precedence → Nat
  | .lowest => 0
  | .equality => 1
  | .order => 2
  | .sum => 3
  | .product => 4
  | .unary => 5

instance : LT Precedence := ⟨fun p q => p.rank < q.rank⟩

instance (p q : Precedence) : Decidable (p < q) := inferInstanceAs (Decidable (p.rank < q.rank))

/-- The name of a strength. -/
def name : Precedence → String
  | .lowest => "Lowest"
  | .equality => "Equals"
  | .order => "LessGreater"
  | .sum => "Sum"
  | .product => "Product"
  | .unary => "Prefix"

end Precedence

/-- How tightly a kind binds as a binary operator. -/
def Kind.precedence : Kind → Precedence
  | .eq | .notEq => .equality
  | .lt | .gt => .order
  | .plus | .minus => .sum
  | .asterisk | .slash => .product
  | _ => .lowest

end Frontend
