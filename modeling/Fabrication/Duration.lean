import Fabrication.Decimal.Arith
import Fabrication.Recipe

/-!
# Run durations and job splitting

A run lasts `ceil(base * (1 - TE/100) * (1 - time bonus/100) * max(0, skill multiplier))`
seconds, time efficiency counting only for building; a duration past the largest count
falls back to the base duration. A step whose runs take longer than a ceiling is split into
jobs of at most `max` runs each: evenly (sizes differ by at most one, larger ones first), or
filling each job to `max` and leaving the rest to the last.
-/

namespace Fabrication

/-- Seconds per run. -/
def durationPerRun (base : Nat) (a : Activity) (te : Nat) (timeBonus skill : Decimal) :
    Except Fault Nat := do
  let teFactor ← if a.usesEfficiency then Decimal.reduction (Decimal.ofNat te) else pure Decimal.one
  let x ← Decimal.mul (Decimal.ofNat base) teFactor
  let facility ← Decimal.reduction timeBonus
  let x ← Decimal.mul x facility
  let x ← Decimal.mul x (Decimal.max skill Decimal.zero)
  pure (x.ceil.toCount?.getD base)

/-- How the runs of a long step are shared among its jobs. -/
inductive SplitStrategy where
  | even
  | fill
  deriving DecidableEq, Repr, Inhabited

namespace SplitStrategy

def name : SplitStrategy → String
  | even => "Even"
  | fill => "Fill"

def ofName? : String → Option SplitStrategy
  | "Even" => some even
  | "Fill" => some fill
  | _ => none

end SplitStrategy

/-- The runs of each job when `runs` runs are split into jobs of at most `max` runs (at
least one). -/
def splitRuns (runs max : Nat) (strategy : SplitStrategy) : List Nat :=
  let max := Nat.max max 1
  if runs ≤ max then [runs]
  else
    let jobs := Count.divCeil runs max
    match strategy with
    | .even => (List.range jobs).map fun i => if i < runs % jobs then runs / jobs + 1 else runs / jobs
    | .fill => (List.range jobs).map fun i => if i + 1 < jobs then max else runs - max * (jobs - 1)

end Fabrication
