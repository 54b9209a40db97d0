import Fabrication.Double.Arith

/-!
# Values of JSON numbers

A JSON number is read as a reader of 64-bit values reads it:

* a whole number without point or exponent is kept exactly when it fits: below `2^64`
  without sign, down to `-2^63` with one; `-0` and any other negative number are doubles;
* otherwise the digits are gathered into a significand while it stays below `2^64`: digits
  of the whole part that no longer fit each raise the power of ten by one, digits of the
  fraction that no longer fit are dropped, and those that fit lower it by one;
* the significand is then made a double and multiplied or divided once by the double
  nearest to the power of ten (dividing by `1e308` first while the power is beyond
  `10^308`). The result may differ in its last place from the double nearest to the text.

A number whose double is infinite has no value, and neither has one whose exponent digits
pass `2^31 - 1` while the significand is nonzero and the exponent positive; a negative
exponent that long, or a zero significand, gives zero.
-/

namespace Fabrication

namespace Json

/-- A number read from JSON text: a whole number of 64 bits without sign, a negative whole
number of 64 bits, or a double. -/
inductive Number where
  | unsigned (n : Nat)
  | signed (n : Int)
  | float (x : Double)
  deriving DecidableEq, Repr

/-- Why a number has no value: its double is infinite, or its exponent passes `2^31 - 1` at
the given digit of the exponent. -/
inductive NumberFault where
  | outOfRange
  | exponentTooLong (digits : Nat)
  deriving DecidableEq, Repr

/-- The written parts of a number: its sign, the digits before the point, those after it
(none when there is no point) and the exponent's sign (`true` for positive) and digits. -/
structure NumberParts where
  negative : Bool
  whole : List Nat
  fraction : List Nat
  exponent : Option (Bool × List Nat)
  deriving Repr

namespace Number

def significandMax : Nat := Nat.pow 2 64 - 1

def exponentMax : Nat := Nat.pow 2 31 - 1

/-- Digits taken into a significand while it stays at most `significandMax`: the
significand and the digits left over. -/
def absorb : Nat → List Nat → Nat × List Nat
  | s, [] => (s, [])
  | s, d :: ds => if s * 10 + d > significandMax then (s, d :: ds) else absorb (s * 10 + d) ds

/-- The value of an exponent's digits, or the number of digits read when it passes
`exponentMax`. -/
def exponentValue : Nat → Nat → List Nat → Except Nat Nat
  | e, _, [] => .ok e
  | e, k, d :: ds =>
    if e * 10 + d > exponentMax then .error (k + 1) else exponentValue (e * 10 + d) (k + 1) ds

/-- A power of ten kept within 32 signed bits, as a saturating sum leaves it. -/
def saturate (e : Int) : Int := max (-(Int.pow 2 31)) (min (Int.pow 2 31 - 1) e)

/-- Divide by `1e308` while the power is beyond the table; the fuel is never exhausted,
since two such divisions leave any 64-bit significand at zero. -/
def scaleSteps (f : Double) (e : Int) : Nat → Option Double
  | 0 => some f
  | fuel + 1 =>
    if e.natAbs ≤ 308 then
      if e ≥ 0 then f.mul? (Double.powerOfTen e.natAbs) else f.div? (Double.powerOfTen e.natAbs)
    else if f.isZero then some f
    else if e ≥ 0 then none
    else
      match f.div? (Double.powerOfTen 308) with
      | some g => scaleSteps g (e + 308) fuel
      | none => none

/-- `significand × 10^e` as the reader computes it; none when it is infinite. -/
def scaled (significand : Nat) (e : Int) : Option Double :=
  (Double.ofNat? significand).bind fun f => scaleSteps f e 4

def signedFloat (negative : Bool) : Option Double → Except NumberFault Number
  | some x => .ok (.float (if negative then x.neg else x))
  | none => .error .outOfRange

/-- The value of a number from its written parts. -/
def ofParts (p : NumberParts) : Except NumberFault Number :=
  let (s, extra) := absorb 0 p.whole
  if p.fraction.isEmpty && p.exponent.isNone then
    if !extra.isEmpty then signedFloat p.negative (scaled s extra.length)
    else if !p.negative then .ok (.unsigned s)
    else if s == 0 then .ok (.float (Double.zeroOf true))
    else if s ≤ Nat.pow 2 63 then .ok (.signed (-(s : Int)))
    else signedFloat true (Double.ofNat? s)
  else
    let (s, dropped) := absorb s p.fraction
    let e : Int := (extra.length : Int) - ((p.fraction.length - dropped.length : Nat) : Int)
    match p.exponent with
    | none => signedFloat p.negative (scaled s e)
    | some (positive, digits) =>
      match exponentValue 0 0 digits with
      | .error k =>
        if s != 0 && positive then .error (.exponentTooLong k)
        else .ok (.float (Double.zeroOf p.negative))
      | .ok x => signedFloat p.negative (scaled s (saturate (if positive then e + x else e - x)))

end Number

end Json

end Fabrication
