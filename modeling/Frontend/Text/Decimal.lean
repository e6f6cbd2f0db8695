/-!
# Decimal numbers as text

The value of a run of decimal digits, in any number and with leading zeros.
-/

set_option autoImplicit false

namespace Frontend.Text

/-- The value of a decimal digit. -/
def digitValue (c : Char) : Nat := c.toNat - '0'.toNat

/-- The value of a run of decimal digits. -/
def decimalValue (digits : List Char) : Nat :=
  digits.foldl (fun value c => 10 * value + digitValue c) 0

/-- One more than the largest signed 64-bit word. -/
def int64Bound : Nat := 9223372036854775808

/-- The signed 64-bit word that a run of decimal digits denotes, if there is one. -/
def int64? (digits : List Char) : Option Int64 :=
  let value := decimalValue digits
  if value < int64Bound then some (Int64.ofNat value) else none

end Frontend.Text
