import Fabrication.Double

/-!
# Arithmetic on doubles

Each operation computes the exact result of two doubles as a fraction of natural numbers and
rounds it once to the nearest double (`Double.nearestOf`), which is what a correctly rounded
floating-point unit does. A result past the largest finite double has no value (`none`): it
would be infinite. A zero operand gives a zero carrying the sign of the exact result.

* `Double.ofNat?` is the double nearest to a whole number;
* `Double.mul?` and `Double.div?` are the rounded product and quotient;
* `Double.powerOfTen k` is the double nearest to `10^k`, as a literal `1ek` denotes it.
-/

namespace Fabrication

namespace Double

def zeroOf (negative : Bool) : Double := ⟨negative, 0, 0⟩

def isZero (x : Double) : Bool := x.significand == 0

def neg (x : Double) : Double := { x with negative := !x.negative }

/-- The double nearest to `± num / den`; none past the largest finite double. A zero
numerator, or a value that rounds to zero, gives a signed zero. -/
def ofFraction? (negative : Bool) (num den : Nat) : Option Double :=
  if num == 0 then some (zeroOf negative)
  else (nearestOf num den).map fun (m, e) => if m == 0 then zeroOf negative else ⟨negative, m, e⟩

def ofNat? (n : Nat) : Option Double := ofFraction? false n 1

def mul? (x y : Double) : Option Double :=
  let (xn, xd) := x.magnitude
  let (yn, yd) := y.magnitude
  ofFraction? (x.negative != y.negative) (xn * yn) (xd * yd)

/-- The rounded quotient; none when it is infinite or the divisor is zero. -/
def div? (x y : Double) : Option Double :=
  if y.isZero then none
  else
    let (xn, xd) := x.magnitude
    let (yn, yd) := y.magnitude
    ofFraction? (x.negative != y.negative) (xn * yd) (xd * yn)

/-- The double nearest to `10^k`; every power up to `10^308` is finite. -/
def powerOfTen (k : Nat) : Double := (ofDecimal false 1 k).getD (zeroOf false)

end Double

end Fabrication
