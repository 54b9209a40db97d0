import Fabrication.Tree.Expand
import Fabrication.Step.Merge
import Fabrication.Step.Reconcile
import Fabrication.Step.Schedule

/-!
# Calculating a plan

A plan is calculated from a request in five stages: read a catalogue snapshot for the
targets, expand every target into a tree, merge the trees into steps, reconcile the
conversion steps, then attach durations and split long steps with the best multipliers of
the request's operators.

A request needs at least one target, and every target a positive quantity and efficiencies
of at most 100 percent; the first target at fault is reported.

Besides the steps, a calculation lists the raw materials: for every step that is not
bought and whose recipe is known, the amounts of its inputs that no step (other than a
copy) produces, added up per material and taken before splitting. Its warnings name each
recipe key once: first for a step without a facility bonus, else for a step without a
duration.
-/

namespace Fabrication

/-- What a plan is calculated for. -/
structure PlanRequest where
  user : Nat := 0
  targets : List Target := []
  excluded : List Nat := []
  overrides : List (Nat × Bonus) := []
  operators : List Nat := []
  deriving Repr, Inhabited

namespace PlanRequest

/-- The first problem of a request. -/
def validate (r : PlanRequest) : Except PlanError Unit :=
  if r.targets.isEmpty then .error (.invalidInput .noTargets)
  else
    match r.targets.find? fun t => t.quantity == 0 || t.me > 100 || t.te > 100 with
    | none => .ok ()
    | some t =>
      if t.quantity == 0 then .error (.invalidInput (.zeroQuantity t.material))
      else .error (.invalidInput (.targetEfficiency t.material))

/-- What a request reads of the catalogue: for its user, the materials of its targets, with its
exclusions and bonus overrides. -/
def snapshotRequest (r : PlanRequest) : SnapshotRequest :=
  { user := r.user, roots := r.targets.map (·.material), excluded := r.excluded,
    overrides := r.overrides }

end PlanRequest

/-- How serious a warning is. -/
inductive Severity where
  | info
  | warning
  | error
  deriving DecidableEq, Repr, Inhabited

def Severity.name : Severity → String
  | .info => "Info"
  | .warning => "Warning"
  | .error => "Error"

/-- A remark about a material of the plan that does not stop the calculation. -/
structure Warning where
  material : Nat
  message : String
  severity : Severity
  deriving DecidableEq, Repr, Inhabited

/-- A calculated plan: its steps, the trees they came from, the raw materials to buy,
warnings, and the catalogue reads spent. -/
structure Calculation where
  steps : List Step
  trees : List Node
  raw : List (Nat × Nat)
  warnings : List Warning
  reads : Nat
  deriving Repr, Inhabited

/-- The raw materials of steps, ascending by material. -/
def rawMaterials (steps : List Step) (book : RecipeBook) : Except Fault (List (Nat × Nat)) :=
  let produced := (steps.filter (!·.isCopy)).map (·.product)
  (steps.filter (!·.purchased)).foldlM (fun acc s =>
    match book.get? s.key with
    | none => pure acc
    | some r =>
      (r.inputs.filter fun p => !produced.contains p.material).foldlM (fun acc p => do
        let q ← requiredQuantity p.quantity s.runs s.activity s.me s.matBonus
        Node.addTo p.material q acc) acc) []

/-- The warnings of steps, one per recipe key. -/
def warningsOf (steps : List Step) : List Warning :=
  (steps.foldl (fun (acc : List Warning × List RecipeKey) s =>
    let (ws, reported) := acc
    if s.bonusMissing && !reported.contains s.key then
      (ws ++ [⟨s.product, s!"配方 {s.recipe} 沒有可用設施，加成以 0 計算", .warning⟩],
        reported ++ [s.key])
    else if s.duration.isNone && !reported.contains s.key then
      (ws ++ [⟨s.product, s!"配方 {s.recipe} 缺少時間資料", .info⟩], reported ++ [s.key])
    else acc) ([], [])).1

/-- Calculate a plan. -/
def calculate (config : EngineConfig) (table : SkillTable) (catalog : Catalog) (res : Resolver)
    (world : World) (req : PlanRequest) : Planning Calculation := do
  Planning.ofOutcome (Outcome.ofPlan req.validate)
  let snap ← Planning.ofFault (Snapshot.load catalog res req.snapshotRequest config)
  let trees ← Planning.ofOutcome (Node.expandAll snap config req.excluded req.targets)
  let steps ← Step.ofForest trees snap config
  let steps ← Planning.ofOutcome (Step.reconcile steps snap.book)
  let raw ← Planning.ofFault (rawMaterials steps snap.book)
  let sched ← Planning.ofFault (Scheduler.ofOperators config table world req.operators)
  let steps ← sched.schedule steps snap.book
  pure { steps, trees, raw, warnings := warningsOf steps, reads := snap.reads }

end Fabrication
