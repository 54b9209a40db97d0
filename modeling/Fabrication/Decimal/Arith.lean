import Fabrication.Decimal.Basic
import Fabrication.Fault

/-!
# Decimal arithmetic

Sums, differences and products are computed exactly and then brought into range by
`Decimal.fit`, which drops the fewest digits (rounding half to even) that make the scale at
most 28 and the mantissa smaller than `2^96`. A result that would need a negative scale
overflows.

* A product carries the sum of the scales; a zero factor gives plain zero.
* A sum carries the larger scale; a zero operand gives the other operand back unchanged, and
  operands that cancel give positive zero.
* A quotient starts from the difference of the scales and produces more digits only while a
  remainder is left, up to 28 places or the mantissa bound; if a remainder ever appeared,
  trailing zeros are then taken off in steps of four, two and one (and of eight only when
  the low 32 bits of the mantissa are zero), so `20 / 100` is `0.20`.
-/

namespace Fabrication

namespace Decimal

/-- The fewest digits to drop from `p` at scale `s`, at least `r`, such that the rounded
mantissa fits; `none` when more digits than the scale would be needed. At most `left`
more digits may be tried; `fitFrom` starts with all `s + 1 - r` of them. -/
def fitWithin (p s : Nat) : (left r : Nat) → Option (Nat × Nat)
  | 0, _ => none
  | left + 1, r =>
    let m := divPow10HalfEven p r
    if m < mantissaBound then some (m, s - r) else fitWithin p s left (r + 1)

/-- The fewest digits to drop from `p` at scale `s`, at least `r`, such that the rounded
mantissa fits; `none` when more digits than the scale would be needed. -/
def fitFrom (p s r : Nat) : Option (Nat × Nat) := fitWithin p s (s + 1 - r) r

def fit (p s : Nat) : Option (Nat × Nat) := fitFrom p s (s - maxScale)

/-- A signed exact value `t / 10^s` brought into range; `zeroSign` is the sign given to an
exact zero. -/
def ofExact (t : Int) (s : Nat) (zeroSign : Bool) : Option Decimal :=
  (fit t.natAbs s).map fun (m, k) => ⟨if t = 0 then zeroSign else decide (t < 0), m, k⟩

def atScale (d : Decimal) (s : Nat) : Int := d.signed * (Nat.pow 10 (s - d.scale) : Nat)

/-- The sum, or `none` on overflow. A zero operand gives the other one back; two operands
that cancel give positive zero. -/
def add? (a b : Decimal) : Option Decimal :=
  if a.isZero then some b
  else if b.isZero then some a
  else
    let s := Nat.max a.scale b.scale
    ofExact (a.atScale s + b.atScale s) s false

/-- The difference, or `none` on overflow. A zero left side gives the right side negated
(a zero right side is returned as it is); a zero right side gives the left side. -/
def sub? (a b : Decimal) : Option Decimal :=
  if a.isZero then some (if b.isZero then b else b.neg)
  else add? a b.neg

/-- The product, or `none` on overflow. Two small mantissas whose scales add up to more than
47 give plain zero; a product that rounds to zero is positive. -/
def mul? (a b : Decimal) : Option Decimal :=
  if a.isZero || b.isZero then some zero
  else
    let s := a.scale + b.scale
    let neg := a.negative != b.negative
    if a.mantissa < Nat.pow 2 32 && b.mantissa < Nat.pow 2 32 && s > maxScale + 19 then some zero
    else (fit (a.mantissa * b.mantissa) s).map fun (m, k) => ⟨neg && m != 0, m, k⟩

/-- Why a quotient has no value. -/
inductive DivisionFault where
  | byZero
  | overflow
  deriving DecidableEq, Repr

/-- How many more digits a quotient mantissa `q` at scale `s` may take: the most, up to
nine, that keep `q * 10^k` below the bound and the scale at most 28; `none` when even that
leaves the scale negative. -/
def extraDigits (q : Nat) (s : Int) : Option Nat :=
  let fits := ((List.range 10).filter fun k => q * Nat.pow 10 k < mantissaBound).foldl Nat.max 0
  let k := if s > 19 then Nat.min fits (28 - s).toNat else fits
  if (k : Int) + s < 0 then none else some k

/-- A quotient mantissa that reached `2^96` loses one more digit, rounding half to even;
`sticky` says whether digits beyond it were nonzero. -/
def shedOverflow (v : Nat) (s : Int) (sticky : Bool) : Except DivisionFault (Nat × Int) :=
  if s ≤ 0 then .error .overflow
  else
    let q := v / 10
    let r := v % 10
    .ok (if r > 5 ∨ (r = 5 ∧ (sticky ∨ q % 2 = 1)) then q + 1 else q, s - 1)

/-- Trailing zeros taken off a quotient: by eight only while the low 32 bits are zero, then
at most once each by four, two and one. -/
def trimQuotient (q : Nat) (s : Int) : Nat × Int :=
  let (q, s) := trimEights q s 4
  let (q, s) := if q % 16 = 0 ∧ s ≥ 4 ∧ q % Nat.pow 10 4 = 0 then (q / Nat.pow 10 4, s - 4) else (q, s)
  let (q, s) := if q % 4 = 0 ∧ s ≥ 2 ∧ q % 100 = 0 then (q / 100, s - 2) else (q, s)
  if q % 2 = 0 ∧ s ≥ 1 ∧ q % 10 = 0 then (q / 10, s - 1) else (q, s)
where
  /-- Steps of eight; a scale of at most 28 allows at most three. -/
  trimEights (q : Nat) (s : Int) : Nat → Nat × Int
    | 0 => (q, s)
    | n + 1 =>
      if q % Nat.pow 2 32 = 0 ∧ s ≥ 8 ∧ q % Nat.pow 10 8 = 0 then trimEights (q / Nat.pow 10 8) (s - 8) n
      else (q, s)

/-- Round a quotient mantissa `q` by its remainder `r` over divisor `b`: up when the
remainder is more than half, or exactly half and `q` is odd. -/
def roundQuotient (q r b : Nat) (s : Int) : Except DivisionFault (Nat × Int) :=
  if 2 * r > b ∨ (2 * r = b ∧ q % 2 = 1) then
    if q + 1 < mantissaBound then .ok (q + 1, s) else shedOverflow (q + 1) s true
  else .ok (q, s)

/-- Long division of mantissas: `q` and `r` are quotient and remainder so far at scale `s`,
`b` the divisor. Each step adds at least one digit and the scale never passes 28, so sixty
steps suffice for any start at or above -28. -/
def divSteps (b : Nat) : Nat → Nat → Int → Bool → Nat → Except DivisionFault (Nat × Int × Bool)
  | _, _, _, _, 0 => .error .overflow
  | q, r, s, hadRemainder, fuel + 1 =>
    let step (k : Nat) (hadRemainder : Bool) : Except DivisionFault (Nat × Int × Bool) :=
      let q' := q * Nat.pow 10 k
      if q' ≥ mantissaBound then .error .overflow
      else
        let n := r * Nat.pow 10 k
        let q'' := q' + n / b
        let r' := n % b
        if q'' ≥ mantissaBound then
          (shedOverflow q'' (s + k) (r' != 0)).map fun (m, t) => (m, t, hadRemainder)
        else divSteps b q'' r' (s + k) hadRemainder fuel
    if r = 0 then
      if s ≥ 0 then .ok (q, s, hadRemainder) else step (Nat.min 9 (-s).toNat) hadRemainder
    else if s = 28 then (roundQuotient q r b s).map fun (m, t) => (m, t, true)
    else
      match extraDigits q s with
      | none => .error .overflow
      | some 0 => (roundQuotient q r b s).map fun (m, t) => (m, t, true)
      | some k => step k true

/-- The quotient. Dividing by zero is refused; a zero dividend gives plain zero. -/
def div? (a b : Decimal) : Except DivisionFault Decimal :=
  if b.isZero then .error .byZero
  else if a.isZero then .ok zero
  else
    let neg := a.negative != b.negative
    let s : Int := (a.scale : Int) - b.scale
    match divSteps b.mantissa (a.mantissa / b.mantissa) (a.mantissa % b.mantissa) s false 60 with
    | .error e => .error e
    | .ok (q, t, hadRemainder) =>
      let (q, t) := if hadRemainder then trimQuotient q t else (q, t)
      .ok ⟨neg && q != 0, q, t.toNat⟩

def add (a b : Decimal) : Except Fault Decimal :=
  match add? a b with
  | some x => .ok x
  | none => .error .decimalAddOverflow

def sub (a b : Decimal) : Except Fault Decimal :=
  match sub? a b with
  | some x => .ok x
  | none => .error .decimalSubOverflow

def mul (a b : Decimal) : Except Fault Decimal :=
  match mul? a b with
  | some x => .ok x
  | none => .error .decimalMulOverflow

/-- The quotient; a zero divisor or overflow is a fault. -/
def div (a b : Decimal) : Except Fault Decimal :=
  match div? a b with
  | .ok x => .ok x
  | .error .byZero => .error .divisionByZero
  | .error .overflow => .error .decimalDivOverflow

/-- `1 - pct / 100`, the factor left after a reduction of `pct` percent, never below zero
(a factor that comes out zero or less is plain zero). -/
def reduction (pct : Decimal) : Except Fault Decimal := do
  let part ← div pct hundred
  let left ← sub one part
  pure (max left zero)

/-- The sum of a list, from zero, left to right. -/
def sum (xs : List Decimal) : Except Fault Decimal := xs.foldlM add zero

end Decimal

end Fabrication
