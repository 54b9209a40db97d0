import Fabrication.Decimal.Arith
import Fabrication.Recipe

/-!
# Material quantities

How many runs a quantity needs, and how much of an input those runs use once material
efficiency and facility bonus have cut it down. A use is computed as a decimal, rounded to
two places (a tie away from zero) and then up to a whole unit, and is never below one unit
per run. If the decimal product overflows, the uncut quantity `base * runs` (held at the
largest count) is used; a product past the largest count counts as zero and so falls back to
one unit per run.
-/

namespace Fabrication

/-- Runs needed for a quantity when a run makes `out` units (at least one). -/
def runsFor (quantity out : Nat) : Nat := Count.divCeil quantity (Nat.max out 1)

/-- Units of an input used by `runs` runs of `base` units each, after a material efficiency
of `me` percent and a facility bonus of `bonus` percent. -/
def adjustedQuantity (base runs me : Nat) (bonus : Decimal) : Except Fault Nat := do
  let meFactor ← Decimal.reduction (Decimal.ofNat me)
  let bonusFactor ← Decimal.reduction bonus
  let raw := (Decimal.mul? (Decimal.ofNat base) (Decimal.ofNat runs)).bind fun v =>
    (Decimal.mul? v meFactor).bind fun v => Decimal.mul? v bonusFactor
  let adjusted := match raw with
    | some v => ((v.roundAway 2).ceil.toCount?).getD 0
    | none => Count.satMul base runs
  pure (Nat.max adjusted runs)

/-- Units of an input used by a step of an activity: material efficiency counts only for
building. -/
def requiredQuantity (base runs : Nat) (a : Activity) (me : Nat) (bonus : Decimal) :
    Except Fault Nat :=
  adjustedQuantity base runs (if a.usesEfficiency then me else 0) bonus

end Fabrication
