import Fabrication.Step
import Fabrication.Duration
import Fabrication.Config
import Fabrication.World

/-!
# Run durations and split groups

A scheduler knows one skill multiplier per activity, one unless set. Taken from a list of
operators, the multiplier of an activity is the smallest of the operators' multipliers (the
first of equal ones). Every step whose recipe is in the book gets its seconds per run; a
step without recipe keeps no duration.

With a job duration ceiling `c`, a step that is not a copy, not already split, not kept, and
whose runs last `d > 0` seconds each with `d * runs > c` (held at the largest count) is
replaced by a split group: the runs are shared by `splitRuns runs (max 1 (c / d))`, the
first member keeps the step's identifier and target, the others get fresh identifiers and
no target. Each member but the last makes `runs * out` units, or what is left of the
quantity if that is less; the last makes all that is left.
-/

namespace Fabrication

/-- Durations and splitting under a configuration. -/
structure Scheduler where
  config : EngineConfig
  /-- Skill multipliers set per activity. -/
  multipliers : List (Activity × Decimal) := []
  deriving Repr, Inhabited

namespace Scheduler

def multiplierOf (s : Scheduler) (a : Activity) : Decimal :=
  ((s.multipliers.find? (·.1 == a)).map (·.2)).getD Decimal.one

def withMultiplier (s : Scheduler) (a : Activity) (m : Decimal) : Scheduler :=
  { s with multipliers := putEntry a m s.multipliers }

def keepSmaller (s : Scheduler) (a : Activity) (m : Decimal) : Scheduler :=
  match s.multipliers.find? (·.1 == a) with
  | none => s.withMultiplier a m
  | some (_, best) => s.withMultiplier a (Decimal.min best m)

/-- The scheduler for a list of operators: per activity the best multiplier among them. -/
def ofOperators (config : EngineConfig) (table : SkillTable) (world : World)
    (operators : List Nat) : Except Fault Scheduler :=
  operators.foldlM (fun sch c =>
    let levels := world.levelsOf c
    Activity.all.foldlM (fun sch a => do
      let m ← table.multiplier a levels
      pure (sch.keepSmaller a m)) sch) { config }

/-- Give every step whose recipe is known its seconds per run. -/
def attachDurations (s : Scheduler) (steps : List Step) (book : RecipeBook) :
    Except Fault (List Step) :=
  steps.mapM fun step =>
    match book.get? step.key with
    | none => pure { step with duration := none }
    | some r => do
      let d ← durationPerRun r.baseDuration step.activity step.te step.timeBonus
        (s.multiplierOf step.activity)
      pure { step with duration := some d }

/-- The members of a split group made from a step, with the runs of each member. -/
def splitStep (step : Step) (parts : List Nat) : Planning (List Step) := do
  let group ← Planning.mint
  let last := parts.length - 1
  let (members, _) ← parts.zipIdx.foldlM (fun (acc : List Step × Nat) (runs, index) => do
    let (members, assigned) := acc
    let id ← if index == 0 then pure step.id else Planning.mint
    let left := step.quantity - assigned
    let quantity ← if index == last then pure left
      else do
        let made ← Planning.ofFault (Count.mul? runs step.out)
        pure (Nat.min made left)
    let member := { step with id, runs, quantity,
                              target := if index == 0 then step.target else 0,
                              split := some ⟨group, index, step.runs⟩ }
    pure (member :: members, assigned + quantity)) ([], 0)
  pure members.reverse

/-- Whether a step is split under a ceiling, unless kept. -/
def splits (ceiling : Nat) (keep : List Ident) (step : Step) : Option Nat :=
  match step.duration with
  | some d =>
    if !step.isCopy && !step.isSplit && !keep.contains step.id && d > 0 &&
        Count.satMul d step.runs > ceiling then some d
    else none
  | none => none

/-- Split the long steps, except the kept ones. -/
def splitExcept (s : Scheduler) (steps : List Step) (keep : List Ident) : Planning (List Step) :=
  match s.config.maxJobDuration with
  | none => pure steps
  | some ceiling =>
    List.flatten <$> steps.mapM fun step =>
      match splits ceiling keep step with
      | some d => splitStep step (splitRuns step.runs (Nat.max (ceiling / d) 1) s.config.splitStrategy)
      | none => pure [step]

def schedule (s : Scheduler) (steps : List Step) (book : RecipeBook) : Planning (List Step) := do
  let steps ← Planning.ofFault (s.attachDurations steps book)
  s.splitExcept steps []

end Scheduler

end Fabrication
