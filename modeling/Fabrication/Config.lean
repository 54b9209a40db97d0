import Fabrication.Duration
import Fabrication.Error

/-!
# Engine configuration

The settings the planner runs with: efficiencies given to intermediate steps, the job
duration ceiling and how long steps are split, whether copy steps are planned, the expansion
depth limit, the sales tax rate, the fallback cost ratio and the policy for adapting a plan
to matched jobs. `EngineConfig.validate` checks the ranges in a fixed order and reports the
first value out of range.
-/

namespace Fabrication

/-- When a step's runs follow the runs of the jobs matched to it. -/
inductive MatchPolicy where
  | onAnyDifference
  | onOvershoot
  | never
  deriving DecidableEq, Repr, Inhabited

namespace MatchPolicy

def name : MatchPolicy → String
  | onAnyDifference => "OnAnyDifference"
  | onOvershoot => "OnOvershoot"
  | never => "Never"

/-- The policy with a name. -/
def ofName? : String → Option MatchPolicy
  | "OnAnyDifference" => some onAnyDifference
  | "OnOvershoot" => some onOvershoot
  | "Never" => some never
  | _ => none

/-- Whether a step planned for `planned` runs follows `matched` matched runs: never when
nothing matched; on overshoot only when more matched than planned; on any difference when
they differ. -/
def shouldAdapt (p : MatchPolicy) (planned matched : Nat) : Bool :=
  if matched = 0 then false
  else match p with
    | onOvershoot => matched > planned
    | onAnyDifference => matched != planned
    | never => false

end MatchPolicy

/-- Settings of the planner. -/
structure EngineConfig where
  childBuildEfficiency : Nat := 10
  childConvertEfficiency : Nat := 0
  childTimeEfficiency : Nat := 20
  maxJobDuration : Option Nat := some 172800
  splitStrategy : SplitStrategy := .even
  includeCopySteps : Bool := true
  maxDepth : Nat := 20
  salesTaxRate : Decimal := ⟨false, 36, 3⟩
  fallbackCostRatio : Option Decimal := none
  matchPolicy : MatchPolicy := .onAnyDifference
  deriving DecidableEq, Repr, Inhabited

namespace EngineConfig

/-- Material efficiency of intermediate steps: conversions have their own. -/
def childMaterialEfficiency (c : EngineConfig) (isConversion : Bool) : Nat :=
  if isConversion then c.childConvertEfficiency else c.childBuildEfficiency

/-- The first setting out of range: an efficiency above 100, a tax rate outside `[0, 1]`,
a zero duration ceiling, a zero depth limit. -/
def validate (c : EngineConfig) : Except PlanError Unit :=
  let efficiencies := [("child_build_efficiency", c.childBuildEfficiency),
    ("child_convert_efficiency", c.childConvertEfficiency),
    ("child_time_efficiency", c.childTimeEfficiency)]
  match efficiencies.find? (·.2 > 100) with
  | some (field, v) => .error (.invalidInput (.configOutOfRange field (toString v)))
  | none =>
    if c.salesTaxRate < Decimal.zero || Decimal.one < c.salesTaxRate then
      .error (.invalidInput (.configOutOfRange "sales_tax_rate" c.salesTaxRate.render))
    else if c.maxJobDuration = some 0 then .error (.invalidInput .jobDurationZero)
    else if c.maxDepth = 0 then .error (.invalidInput .depthLimitZero)
    else .ok ()

end EngineConfig

end Fabrication
