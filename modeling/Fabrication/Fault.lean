/-!
# Arithmetic breakdowns and bounded counts

Quantities, runs and identifiers are counts below `2^64`. Where a count would leave that
range the computation stops with a `Fault` (saturating operations say so in their name).
Decimal arithmetic can break down too: a product or sum past the mantissa bound, or a
division by zero; and so can moving a time out of the calendar's range.

A sum of counts overflows exactly when its total does, whatever the order of its terms, so
`Count.sum?` compares the total with the bound.
-/

namespace Fabrication

/-- A computation that cannot go on. -/
inductive Fault where
  | countAddOverflow
  | countMulOverflow
  | decimalAddOverflow
  | decimalSubOverflow
  | decimalMulOverflow
  | decimalDivOverflow
  | divisionByZero
  | timeOverflow
  deriving DecidableEq, Repr

/-- The text reported for a fault. -/
def Fault.message : Fault → String
  | .countAddOverflow => "attempt to add with overflow"
  | .countMulOverflow => "attempt to multiply with overflow"
  | .decimalAddOverflow => "Addition overflowed"
  | .decimalSubOverflow => "Subtraction overflowed"
  | .decimalMulOverflow => "Multiplication overflowed"
  | .decimalDivOverflow => "Division overflowed"
  | .divisionByZero => "Division by zero"
  | .timeOverflow => "`DateTime - TimeDelta` overflowed"

namespace Count

def bound : Nat := Nat.pow 2 64

def top : Nat := Nat.pow 2 64 - 1

def check (n : Nat) (f : Fault) : Except Fault Nat := if n < bound then .ok n else .error f

def add? (a b : Nat) : Except Fault Nat := check (a + b) .countAddOverflow

def mul? (a b : Nat) : Except Fault Nat := check (a * b) .countMulOverflow

def sum? (xs : List Nat) : Except Fault Nat := check (xs.foldr (· + ·) 0) .countAddOverflow

/-- The product, held at the largest count. -/
def satMul (a b : Nat) : Nat := Nat.min (a * b) top

/-- The difference, held at zero. -/
def satSub (a b : Nat) : Nat := a - b

def divCeil (a b : Nat) : Nat := (a + b - 1) / b

end Count

end Fabrication
