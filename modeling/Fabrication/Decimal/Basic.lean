/-!
# Fixed-point decimals

A `Decimal` is a signed integer mantissa together with a scale: it stands for
`(-1)^negative * mantissa / 10^scale`. Money, percentages, prices and time multipliers are
decimals. The scale belongs to the value as it is written: `0.80` and `0.8` are equal
numbers but print differently, and every operation of the library states which scale its
result carries.

Mantissas stay below `2^96` and scales at most `28`; `Decimal.Arith` drops digits, rounding
half to even, to keep a result inside those bounds.

This file holds the type, its order, rounding to a number of places, and its text.
-/

namespace Fabrication

/-- A fixed-point number `(-1)^negative * mantissa / 10^scale`. A zero mantissa may carry
either sign; the sign of zero shows only in the text. -/
structure Decimal where
  negative : Bool
  mantissa : Nat
  scale : Nat
  deriving DecidableEq, Inhabited, Repr

namespace Decimal

def mantissaBound : Nat := Nat.pow 2 96

def maxScale : Nat := 28

def zero : Decimal := ⟨false, 0, 0⟩

def one : Decimal := ⟨false, 1, 0⟩

def hundred : Decimal := ⟨false, 100, 0⟩

def ofNat (n : Nat) : Decimal := ⟨false, n, 0⟩

def ofInt (i : Int) : Decimal := ⟨decide (i < 0), i.natAbs, 0⟩

instance : OfNat Decimal n := ⟨ofNat n⟩

/-- Whether the value is zero, whatever its sign and scale. -/
def isZero (d : Decimal) : Bool := d.mantissa == 0

/-- The same magnitude and scale with the other sign (zero included). -/
def neg (d : Decimal) : Decimal := { d with negative := !d.negative }

def signed (d : Decimal) : Int := if d.negative then -(d.mantissa : Int) else d.mantissa

/-- Order of values: both sides are brought to a common scale, so scale and the sign of zero
do not matter. -/
def cmp (a b : Decimal) : Ordering :=
  compare (a.signed * (Nat.pow 10 b.scale : Nat)) (b.signed * (Nat.pow 10 a.scale : Nat))

instance : LT Decimal := ⟨fun a b => a.cmp b = .lt⟩
instance : LE Decimal := ⟨fun a b => a.cmp b ≠ .gt⟩
instance (a b : Decimal) : Decidable (a < b) := inferInstanceAs (Decidable (a.cmp b = .lt))
instance (a b : Decimal) : Decidable (a ≤ b) := inferInstanceAs (Decidable (a.cmp b ≠ .gt))

/-- Equality of values, ignoring scale and the sign of zero. -/
def sameValue (a b : Decimal) : Bool := a.cmp b == .eq

/-- The larger of two values; on equal values the second one, with its own scale. -/
def max (a b : Decimal) : Decimal := if a.cmp b == .gt then a else b

/-- The smaller of two values; on equal values the first one, with its own scale. -/
def min (a b : Decimal) : Decimal := if a.cmp b == .gt then b else a

/-- `n / 10^k` rounded to the nearest whole number, a tie going to the even neighbour. -/
def divPow10HalfEven (n k : Nat) : Nat :=
  let p := Nat.pow 10 k
  let q := n / p
  let r := n % p
  if 2 * r > p ∨ (2 * r = p ∧ q % 2 = 1) then q + 1 else q

/-- `n / 10^k` rounded to the nearest whole number, a tie going away from zero. -/
def divPow10HalfUp (n k : Nat) : Nat :=
  let p := Nat.pow 10 k
  if 2 * (n % p) ≥ p then n / p + 1 else n / p

/-- The whole part, toward zero; the sign stays. -/
def trunc (d : Decimal) : Decimal := ⟨d.negative, d.mantissa / Nat.pow 10 d.scale, 0⟩

def hasFraction (d : Decimal) : Bool := d.mantissa % Nat.pow 10 d.scale != 0

/-- The smallest whole number not below the value; a value without places is returned
unchanged, and a negative value keeps its sign (so `-0.5` gives negative zero). -/
def ceil (d : Decimal) : Decimal :=
  if d.scale = 0 then d
  else if !d.negative && d.hasFraction then ⟨false, d.mantissa / Nat.pow 10 d.scale + 1, 0⟩
  else d.trunc

/-- The value rounded to `places` places, a tie going away from zero. A value with fewer
places is returned unchanged: rounding never adds zeros. A zero keeps its sign, while a
nonzero value that rounds to zero becomes positive zero. -/
def roundAway (d : Decimal) (places : Nat) : Decimal :=
  if d.scale ≤ places then d
  else
    let m := divPow10HalfUp d.mantissa (d.scale - places)
    ⟨d.negative && (d.mantissa == 0 || m != 0), m, places⟩

/-- The value as a count: `none` for a negative sign (negative zero included) and for a whole
part of `2^64` or more; digits after the point are dropped. -/
def toCount? (d : Decimal) : Option Nat :=
  if d.negative then none
  else
    let w := d.mantissa / Nat.pow 10 d.scale
    if w < Nat.pow 2 64 then some w else none

/-- Trailing zeros after the point removed; a zero becomes positive zero. -/
def normalize (d : Decimal) : Decimal :=
  if d.mantissa = 0 then zero else go d.mantissa d.scale
where
  go (m s : Nat) : Decimal :=
    match s with
    | 0 => ⟨d.negative, m, 0⟩
    | s + 1 => if m % 10 = 0 then go (m / 10) s else ⟨d.negative, m, s + 1⟩

def mantissaDigits (m : Nat) : List Char :=
  if m = 0 then [] else Nat.toDigits 10 m

/-- The text of a decimal: all places are written, a leading `0` stands before a point with
nothing in front of it, and a negative sign is written also for a zero. -/
def render (d : Decimal) : String :=
  let ds := mantissaDigits d.mantissa
  let padded := List.replicate (d.scale - ds.length) '0' ++ ds
  let whole := padded.take (padded.length - d.scale)
  let frac := padded.drop (padded.length - d.scale)
  let body :=
    if d.scale = 0 then (if whole.isEmpty then "0" else String.ofList whole)
    else (if whole.isEmpty then "0" else String.ofList whole) ++ "." ++ String.ofList frac
  (if d.negative then "-" else "") ++ body

instance : ToString Decimal := ⟨render⟩

end Decimal

end Fabrication
