import Fabrication.Step.Recalculate
import Fabrication.World
import Fabrication.Config
import Fabrication.Sort

/-!
# Matching plan steps to industry jobs

The steps of a plan are matched to the jobs that were actually run.

* Steps are taken in order of depth, recipe id, activity and split index. Bought steps,
  copies, steps left out of matching and steps without runs are skipped.
* A step's pool is the matchable jobs of its recipe and activity, run by the given
  characters from `since` on and not yet claimed, oldest first (by start, then id).
  Walking the pool, every job whose runs fit in the runs still needed is taken; if runs are
  still needed, the first job passed over is taken too. Taken jobs are claimed.
* A job that ran in another facility than the step's is recorded with the step's configured
  bonus (a drift). Per step, or per split group, the latest such job (by start, then id)
  proposes a facility correction.
* When the policy says so, the step takes the matched runs (and `runs * out` units) and is
  reported as adapted.
* Corrections are applied in identifier order: the step or group moves to the job's
  facility with its bonus there; a facility unknown to the user's registry leaves the step
  as it is, with a message.
* After any adaptation or correction the plan is recalculated with the exactly matched
  steps pinned.
-/

namespace Fabrication

/-- The facility a job ran in, when it differs from its step's, and the bonus the step was
configured with. -/
structure Drift where
  configured : Option Nat
  observed : Nat
  material : Decimal
  time : Decimal
  deriving DecidableEq, Repr, Inhabited

/-- A job matched to a step of a plan, with its runs. -/
structure StepMatch where
  plan : Ident
  step : Ident
  job : Nat
  runs : Nat
  drift : Option Drift := none
  deriving DecidableEq, Repr, Inhabited

/-- Which jobs a matching pass looks at: the owner of the plans, the characters (all when
empty) and the earliest start. -/
structure MatchScope where
  user : Nat := 1
  characters : List Nat := []
  since : Int := 0
  deriving DecidableEq, Repr, Inhabited

/-- The result of matching one plan. -/
structure MatchOutcome where
  plan : Ident
  steps : List Step
  assignments : List StepMatch
  adapted : List Ident
  corrected : List Ident
  changed : List Ident
  messages : List String
  deriving DecidableEq, Repr, Inhabited

namespace MatchOutcome

def planChanged (o : MatchOutcome) : Bool :=
  !o.adapted.isEmpty || !o.corrected.isEmpty || !o.changed.isEmpty

def matchedRuns (o : MatchOutcome) (step : Ident) : Except Fault Nat :=
  Count.sum? ((o.assignments.filter (·.step == step)).map (·.runs))

end MatchOutcome

/-- The steps whose matched jobs have exactly their runs (and at least one run); these keep
their runs when the plan is recalculated. -/
def pinnedSteps (steps : List Step) (assignments : List StepMatch) : Except Fault (List Ident) := do
  let matched ← assignments.foldlM (fun (acc : List (Ident × Nat)) m => do
    let total ← Count.add? (((acc.find? (·.1 == m.step)).map (·.2)).getD 0) m.runs
    pure (putEntry m.step total acc)) []
  pure (Ident.sortedSet ((steps.filter fun s =>
    s.runs > 0 && (matched.find? (·.1 == s.id)).map (·.2) == some s.runs).map (·.id)))

/-- The jobs taken for `runs` runs from a pool, oldest first: each job that fits in the runs
still needed, then, if runs are still needed, the first job passed over. -/
def selectJobs (pool : List Job) (runs : Nat) : List Job :=
  let (taken, skipped, remaining) := pool.foldl (fun (acc : List Job × List Job × Nat) job =>
    let (taken, skipped, remaining) := acc
    if remaining == 0 then acc
    else if job.runs ≤ remaining then (taken ++ [job], skipped, remaining - job.runs)
    else (taken, skipped ++ [job], remaining)) ([], [], runs)
  if remaining > 0 then
    match skipped with
    | j :: _ => taken ++ [j]
    | [] => taken
  else taken

/-- A proposed move of a step or group to the facility a job ran in. -/
structure Correction where
  facility : Nat
  started : Int
  job : Nat
  deriving DecidableEq, Repr, Inhabited

/-- The order of matching: depth, recipe id, activity, split index. -/
def matchOrder (steps : List Step) : List Nat :=
  let key (i : Nat) : Step := steps.getD i default
  let idx (s : Step) : Nat := (s.split.map (·.index)).getD 0
  sortBy (fun a b =>
    let x := key a
    let y := key b
    x.depth < y.depth || (x.depth == y.depth && (x.recipe < y.recipe || (x.recipe == y.recipe &&
      (x.activity.rank < y.activity.rank || (x.activity.rank == y.activity.rank &&
        idx x ≤ idx y)))))) (List.range steps.length)

/-- The drift of a job against its step. -/
def driftOf (s : Step) (j : Job) : Option Drift :=
  match j.facility with
  | some observed => if some observed == s.facility then none
    else some ⟨s.facility, observed, s.matBonus, s.timeBonus⟩
  | none => none

/-- The matchable jobs of a recipe, oldest first. -/
def candidateJobs (world : World) (scope : MatchScope) (recipe : Nat) : List Job :=
  sortBy (fun a b => a.started < b.started || (a.started == b.started && a.id ≤ b.id))
    ((world.jobsFor recipe scope.characters scope.since).filter (·.isMatchable))

/-- What a matching pass has gathered so far. -/
structure MatchState where
  steps : List Step
  assignments : List StepMatch := []
  adapted : List Ident := []
  messages : List String := []
  corrections : List (Ident × Correction) := []
  claimed : List Nat
  deriving Repr, Inhabited

/-- Keep the later of a correction and a candidate (by start, then job id). -/
def keepLatest (current candidate : Correction) : Correction :=
  if current.started < candidate.started ||
      (current.started == candidate.started && current.job < candidate.job) then candidate
  else current

/-- Match one step. -/
def matchStep (config : EngineConfig) (plan : Ident) (world : World) (scope : MatchScope)
    (st : MatchState) (index : Nat) : Except Fault MatchState := do
  let step := st.steps.getD index default
  if step.purchased || step.isCopy || !step.autoMatch || step.runs == 0 then return st
  let pool := (candidateJobs world scope step.recipe).filter fun j =>
    j.activity == step.activity && !st.claimed.contains j.id
  let taken := selectJobs pool step.runs
  if taken.isEmpty then return st
  let matched ← Count.sum? (taken.map (·.runs))
  let key := step.group.getD step.id
  let st := taken.foldl (fun (st : MatchState) job =>
    let st := { st with claimed := if st.claimed.contains job.id then st.claimed else st.claimed ++ [job.id],
                        assignments := st.assignments ++ [⟨plan, step.id, job.id, job.runs, driftOf step job⟩] }
    match job.facility with
    | some f =>
      if some f == step.facility then st
      else
        let candidate : Correction := ⟨f, job.started, job.id⟩
        let corrections := match st.corrections.find? (·.1 == key) with
          | some (_, current) => putEntry key (keepLatest current candidate) st.corrections
          | none => st.corrections ++ [(key, candidate)]
        { st with corrections }
    | none => st) st
  if config.matchPolicy.shouldAdapt step.runs matched then
    let msg := s!"物料 {step.product} 的運行次數依實際作業調整: {step.runs} -> {matched}"
    let adaptedStep := { step with runs := matched, quantity := Count.satMul matched step.out }
    pure { st with steps := st.steps.set index adaptedStep, messages := st.messages ++ [msg],
                   adapted := Ident.insertSorted step.id st.adapted }
  else pure st

def underKey (key : Ident) (s : Step) : Bool := s.id == key || s.group == some key

/-- Apply one facility correction. -/
def applyCorrection (res : Resolver) (user : Nat)
    (acc : List Step × List Ident × List String) (entry : Ident × Correction) :
    Outcome (List Step × List Ident × List String) :=
  let (steps, corrected, messages) := acc
  let (key, c) := entry
  match steps.find? (underKey key) with
  | none => pure acc
  | some head =>
    match res.bonusAt c.facility head.product head.activity.isConversion user with
    | .error (.rejected (.bonusUnavailable _)) =>
      pure (steps, corrected, messages ++ [s!"物料 {head.product} 的設施 {c.facility} 不在設施清單中"])
    | .error e => throw e
    | .ok bonus =>
      let moved := steps.filter (underKey key)
      pure (steps.map (fun s => if underKey key s then
          { s.applyBonus bonus with facility := some c.facility } else s),
        moved.foldl (fun ids s => Ident.insertSorted s.id ids) corrected, messages)

/-- Match a plan against the jobs of the world; `claimed` holds jobs already taken, and the
jobs taken here are added to it. -/
def matchPlan (config : EngineConfig) (plan : Plan) (book : RecipeBook) (scope : MatchScope)
    (claimed : List Nat) (world : World) (res : Resolver) : Outcome (MatchOutcome × List Nat) := do
  let st ← Outcome.ofFault ((matchOrder plan.steps).foldlM (matchStep config plan.id world scope)
    ({ steps := plan.steps, claimed } : MatchState))
  let corrections := sortBy (fun a b => !(Ident.lt b.1 a.1)) st.corrections
  let (steps, corrected, messages) ← corrections.foldlM (applyCorrection res scope.user)
    (st.steps, [], st.messages)
  if st.adapted.isEmpty && corrected.isEmpty then
    pure (⟨plan.id, steps, st.assignments, st.adapted, corrected, [], messages⟩, st.claimed)
  else
    let recalc ← Outcome.ofFault (do
      let pinned ← pinnedSteps steps st.assignments
      Step.recalculate steps book pinned)
    pure (⟨plan.id, recalc.steps, st.assignments, st.adapted, corrected, recalc.changed, messages⟩,
      st.claimed)

end Fabrication
