import Fabrication.Matching.Jobs
import Fabrication.Matching.Profit
import Fabrication.Sort

/-!
# The plan store

The store keeps plans by identifier, the job matches of each plan, and the profit matches of
each user. A write changes the store in place, step by step, so a write that fails part way
keeps what it did before failing: a `StoreWrite` gives the store it leaves whether it
succeeds or fails. A store can be told to refuse all writes, which then fail with a
retryable error before they change anything.

* Saving a plan drops the job matches of its identifier, then replaces the plan with that
  identifier or adds it.
* Deleting a plan removes it, fails if there was none to remove, and then drops its job
  matches.
* A user's plans are listed by creation time, then identifier.
* The jobs a user has claimed are those matched to any of the user's plans, one plan
  possibly left out.
* Committing matches for several plans looks all of them up first, and writes nothing if one
  of them is missing.
* Replacing profit matches drops the user's matches of the given products sold within the
  window and appends the new ones.
-/

namespace Fabrication

/-- Plans, their job matches and the users' profit matches. -/
structure PlanStore where
  plans : List Plan := []
  jobMatches : List (Ident × List StepMatch) := []
  profitMatches : List (Nat × List ProfitMatch) := []
  failWrites : Bool := false
  deriving Repr, Inhabited

/-- A write to the plan store: its result and the store after it, also when it fails. -/
abbrev StoreWrite := EStateM PlanError PlanStore

/-- The steps and matches written for one plan by a matching pass. -/
structure MatchingCommit where
  plan : Ident
  steps : List Step
  assignments : List StepMatch
  deriving Repr, Inhabited

namespace PlanStore

/-- Fail, changing nothing, while the store is told to refuse writes. -/
def checkWritable : StoreWrite Unit := do
  if (← get).failWrites then throw .storeRefused

def loadPlan (s : PlanStore) (id : Ident) : Except PlanError Plan :=
  match s.plans.find? (·.id == id) with
  | some p => .ok p
  | none => .error (.planNotFound id)

/-- Plans with `p` in place of the plan with its identifier, or after them all. -/
def withPlan (plans : List Plan) (p : Plan) : List Plan :=
  if plans.any (·.id == p.id) then plans.map fun q => if q.id == p.id then p else q
  else plans ++ [p]

/-- Create or replace a plan, dropping its job matches. -/
def savePlan (p : Plan) : StoreWrite Unit := do
  checkWritable
  modify fun s => { s with jobMatches := s.jobMatches.filter (·.1 != p.id) }
  modify fun s => { s with plans := withPlan s.plans p }

/-- Delete a plan and its job matches. -/
def deletePlan (id : Ident) : StoreWrite Unit := do
  checkWritable
  let found := (← get).plans.any (·.id == id)
  modify fun s => { s with plans := s.plans.filter (·.id != id) }
  unless found do throw (.planNotFound id)
  modify fun s => { s with jobMatches := s.jobMatches.filter (·.1 != id) }

/-- A user's plans by creation time, then identifier. -/
def plansForUser (s : PlanStore) (user : Nat) : List Plan :=
  sortBy (fun a b => a.created < b.created || (a.created == b.created && !(Ident.lt b.id a.id)))
    (s.plans.filter (·.owner == user))

def commitRecalculation (id : Ident) (steps : List Step) : StoreWrite Unit := do
  checkWritable
  unless (← get).plans.any (·.id == id) do throw (.planNotFound id)
  modify fun s => { s with plans := s.plans.map fun p => if p.id == id then { p with steps } else p }

def jobMatchesOf (s : PlanStore) (id : Ident) : List StepMatch :=
  ((s.jobMatches.find? (·.1 == id)).map (·.2)).getD []

def claimedJobs (s : PlanStore) (user : Nat) (except : Option Ident) : List Nat :=
  ascendingSet ((s.plans.filter fun p => p.owner == user && some p.id != except).flatMap
    fun p => (s.jobMatchesOf p.id).map (·.job))

def applyCommit (s : PlanStore) (c : MatchingCommit) : PlanStore :=
  { s with plans := s.plans.map fun p => if p.id == c.plan then { p with steps := c.steps } else p,
           jobMatches := putEntry c.plan c.assignments s.jobMatches }

/-- Write the matching results of several plans, all or nothing: every plan is looked up
before the first is written. -/
def commitMatchingAll (commits : List MatchingCommit) : StoreWrite Unit := do
  checkWritable
  let plans := (← get).plans
  if let some c := commits.find? fun c => !plans.any (·.id == c.plan) then
    throw (.planNotFound c.plan)
  modify fun s => commits.foldl applyCommit s

def profitMatchesOfUser (s : PlanStore) (user : Nat) : List ProfitMatch :=
  ((s.profitMatches.find? (·.1 == user)).map (·.2)).getD []

/-- Replace a user's profit matches of some products within a window. -/
def replaceProfitMatches (user : Nat) (window : Window) (materials : List Nat)
    (new : List ProfitMatch) : StoreWrite Unit := do
  checkWritable
  modify fun s =>
    let kept := (s.profitMatchesOfUser user).filter fun m =>
      !(window.contains m.sold && materials.contains m.material)
    { s with profitMatches := putEntry user (kept ++ new) s.profitMatches }

def profitMatchesIn (s : PlanStore) (user : Nat) (window : Window) : List ProfitMatch :=
  (s.profitMatchesOfUser user).filter fun m => window.contains m.sold

end PlanStore

end Fabrication
