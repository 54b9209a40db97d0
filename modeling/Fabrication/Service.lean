import Fabrication.Store
import Fabrication.Calculation
import Fabrication.Step.Edit

/-!
# The plan service

The service joins the planner to the plan store. Every operation works out its result first,
reading the store, and then writes it with one store write. An operation is a `ServiceOp`:
like a store write, it gives the service it leaves whether it succeeds or fails, since what a
write has done stays done.

* Creating a plan calculates its steps and saves it.
* Updating a step applies the edit, recalculates the plan with the steps whose matched jobs
  have exactly their runs pinned, gives the steps their durations and splits the steps over
  the time limit, the pinned ones apart. A step that is split now and was not, or is new, is
  reported as changed.
* Matching a user's jobs matches each of the user's plans in store order, a job taken by one
  plan being out of reach of the next, and commits all plans at once.
* Matching one plan leaves out the jobs the user's other plans have claimed.
* Computing profit replaces the user's profit matches of the asked products in the window.

A `Request` names one of these operations with its arguments, and `Service.run` performs a
list of requests in order.
-/

namespace Fabrication

/-- The planner's settings, the world it reads, the plan store and the supply of fresh
identifiers. -/
structure Service where
  config : EngineConfig := {}
  table : SkillTable := SkillTable.standard
  resolver : Resolver := {}
  world : World := {}
  store : PlanStore := {}
  supply : IdSupply := {}
  deriving Inhabited

/-- An operation of the plan service: its result and the service after it, also when it
fails. -/
abbrev ServiceOp := EStateM Failure Service

def ServiceOp.lift {α : Type} : Outcome α → ServiceOp α
  | .ok a => pure a
  | .error e => throw e

namespace Service

def catalog (s : Service) : Catalog := { recipes := s.world.recipes }

/-- Perform a write on the service's store, which keeps what the write did also when the
write fails. -/
def write {α : Type} (w : StoreWrite α) : ServiceOp α := fun s =>
  match w.run s.store with
  | .ok a store => .ok a { s with store }
  | .error e store => .error (.rejected e) { s with store }

/-- Calculate a plan's steps and save it. -/
def createPlan (plan : Plan) (operators : List Nat) : ServiceOp Calculation := do
  let s ← get
  let req : PlanRequest :=
    { user := plan.owner, targets := plan.targets, excluded := plan.excluded, operators }
  let (result, supply) ←
    ServiceOp.lift ((calculate s.config s.table s.catalog s.resolver s.world req).run s.supply)
  modify fun s => { s with supply }
  write (PlanStore.savePlan { plan with steps := result.steps })
  pure result

/-- Edit one step of a plan and recalculate the plan. -/
def updateStep (planId stepId : Ident) (edit : StepEdit) (operators : List Nat) :
    ServiceOp Recalculation := do
  let s ← get
  let plan ← ServiceOp.lift (Outcome.ofPlan (s.store.loadPlan planId))
  let steps ← ServiceOp.lift (Step.applyEdit plan.steps stepId edit s.resolver plan.owner)
  let book := (s.catalog.bookForSteps steps).1
  let pinned ← ServiceOp.lift (Outcome.ofFault (pinnedSteps steps (s.store.jobMatchesOf planId)))
  let recalc ← ServiceOp.lift (Outcome.ofFault (Step.recalculate steps book pinned))
  let sched ← ServiceOp.lift (Outcome.ofFault (Scheduler.ofOperators s.config s.table s.world operators))
  let steps ← ServiceOp.lift (Outcome.ofFault (sched.attachDurations recalc.steps book))
  let unsplit := (steps.filter fun st => !st.isSplit).map (·.id)
  let known := steps.map (·.id)
  let (steps, supply) ← ServiceOp.lift ((sched.splitExcept steps pinned).run s.supply)
  modify fun s => { s with supply }
  let changed := (steps.filter fun st =>
    st.isSplit && (unsplit.contains st.id || !known.contains st.id)).foldl
      (fun ids st => Ident.insertSorted st.id ids) recalc.changed
  write (PlanStore.commitRecalculation planId steps)
  pure { steps, changed }

def deletePlan (planId : Ident) : ServiceOp Unit := write (PlanStore.deletePlan planId)

def commitOf (o : MatchOutcome) : MatchingCommit := ⟨o.plan, o.steps, o.assignments⟩

/-- Match the jobs of the world to all of a user's plans. -/
def matchJobs (scope : MatchScope) : ServiceOp (List MatchOutcome) := do
  let s ← get
  let (outcomes, _) ← ServiceOp.lift ((s.store.plansForUser scope.user).foldlM
    (fun (acc : List MatchOutcome × List Nat) plan => do
      let book := (s.catalog.bookForSteps plan.steps).1
      let (o, claimed) ← matchPlan s.config plan book scope acc.2 s.world s.resolver
      pure (acc.1 ++ [o], claimed)) ([], []))
  write (PlanStore.commitMatchingAll (outcomes.map commitOf))
  pure outcomes

/-- Match the jobs of the world to one plan, leaving out the jobs of the owner's other plans. -/
def matchPlanJobs (planId : Ident) (characters : List Nat) (since : Int) :
    ServiceOp MatchOutcome := do
  let s ← get
  let plan ← ServiceOp.lift (Outcome.ofPlan (s.store.loadPlan planId))
  let claimed := s.store.claimedJobs plan.owner (some planId)
  let book := (s.catalog.bookForSteps plan.steps).1
  let scope : MatchScope := { user := plan.owner, characters, since }
  let (o, _) ← ServiceOp.lift (matchPlan s.config plan book scope claimed s.world s.resolver)
  write (PlanStore.commitMatchingAll [commitOf o])
  pure o

/-- Compute profit and replace the user's profit matches it covers. -/
def computeProfit (req : ProfitRequest) : ServiceOp ProfitReport := do
  let s ← get
  let report ← ServiceOp.lift (Outcome.ofFault (Fabrication.computeProfit s.config req s.world))
  write (PlanStore.replaceProfitMatches req.user req.window req.materials report.allocations)
  pure report

/-- The service an operation leaves, whether it succeeded or failed. -/
def after {α : Type} : EStateM.Result Failure Service α → Service
  | .ok _ t => t
  | .error _ t => t

def attempt {α : Type} (op : ServiceOp α) (s : Service) : Outcome (α × Service) :=
  match op.run s with
  | .ok a t => .ok (a, t)
  | .error e _ => .error e

def setFailWrites (s : Service) (fail : Bool) : Service :=
  { s with store := { s.store with failWrites := fail } }

end Service

/-- An operation of the plan service with its arguments. -/
inductive Request where
  | createPlan (plan : Plan) (operators : List Nat)
  | updateStep (plan step : Ident) (edit : StepEdit) (operators : List Nat)
  | deletePlan (plan : Ident)
  | matchJobs (scope : MatchScope)
  | matchPlanJobs (plan : Ident) (characters : List Nat) (since : Int)
  | computeProfit (request : ProfitRequest)

/-- The operation a request names, its answer set aside. -/
def Request.op : Request → ServiceOp Unit
  | .createPlan plan operators => Service.createPlan plan operators >>= fun _ => pure ()
  | .updateStep plan step edit operators =>
    Service.updateStep plan step edit operators >>= fun _ => pure ()
  | .deletePlan plan => Service.deletePlan plan
  | .matchJobs scope => Service.matchJobs scope >>= fun _ => pure ()
  | .matchPlanJobs plan characters since =>
    Service.matchPlanJobs plan characters since >>= fun _ => pure ()
  | .computeProfit request => Service.computeProfit request >>= fun _ => pure ()

namespace Service

def perform (s : Service) (r : Request) : Service := after (r.op.run s)

def run (s : Service) (requests : List Request) : Service := requests.foldl perform s

end Service

end Fabrication
