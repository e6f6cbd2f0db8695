/-!
# Faults of position arithmetic

Offsets, lines and columns are machine words. An operation that leaves the range of its word, a span
that would run backwards and a slice that does not fall on character boundaries are faults: the
operation has no answer. This module names them and gives the checked word operations.
-/

set_option autoImplicit false

namespace Frontend

/-- Why an operation on positions has no answer. -/
inductive Fault where
  | addOverflow
  | subOverflow
  | spanOrder
  | badSlice
  deriving DecidableEq, Repr

/-- The text of a fault; a slice that misses the character boundaries has none. -/
def Fault.message? : Fault → Option String
  | .addOverflow => some "attempt to add with overflow"
  | .subOverflow => some "attempt to subtract with overflow"
  | .spanOrder => some "Span start must not be after end"
  | .badSlice => none

namespace Word

/-- The sum of two 64-bit words, or a fault when it does not fit. -/
def add64 (a b : UInt64) : Except Fault UInt64 :=
  if a.toNat + b.toNat < UInt64.size then .ok (a + b) else .error .addOverflow

/-- The difference of two 64-bit words, or a fault when it is negative. -/
def sub64 (a b : UInt64) : Except Fault UInt64 :=
  if b ≤ a then .ok (a - b) else .error .subOverflow

/-- The sum of two 32-bit words, or a fault when it does not fit. -/
def add32 (a b : UInt32) : Except Fault UInt32 :=
  if a.toNat + b.toNat < UInt32.size then .ok (a + b) else .error .addOverflow

/-- The difference of two 32-bit words, or a fault when it is negative. -/
def sub32 (a b : UInt32) : Except Fault UInt32 :=
  if b ≤ a then .ok (a - b) else .error .subOverflow

end Word

end Frontend
