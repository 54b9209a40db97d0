import Fabrication.Api.Calculation
import Fabrication.Service
import Fabrication.Sort

/-!
# Answers of recalculation and matching

`recalculate`, `apply_edit`, `pinned_steps` and `dirty_tracker` work on steps given in the
request; `match_plan` matches one plan against the world's jobs and `profit` pairs delivered
jobs with sales. The encoders of match outcomes and profit reports are shared with the plan
service.
-/

namespace Fabrication

namespace Api

/-- An edit of a step; the facility is an id or `"clear"`. -/
def asEdit (j : Json) : Decode StepEdit := do
  let me ← getOpt j "me" asU8
  let te ← getOpt j "te" asU8
  let facility ← getOpt j "facility" fun f => match f with
    | .str "clear" => pure FacilityChange.clear
    | other => FacilityChange.assign <$> asU64 other
  let purchased ← getOpt j "purchased" asBool
  let autoMatch ← getOpt j "auto_match" asBool
  pure { me, te, facility, purchased, autoMatch }

def bookOf (j : Json) : Decode RecipeBook := do
  pure (RecipeBook.ofList (← getD j "recipes" (asList asRecipe) []))

def recalculationJson (r : Recalculation) : Encode Json := do
  let steps ← stepsJson r.steps
  let changed ← identSet r.changed
  pure (.obj [("steps", steps), ("changed", changed), ("stable", .bool r.isStable)])

/-- `recalculate`. -/
def recalculateAnswer (j : Json) : Answer Json := do
  let steps ← stepsOf j
  let book ← Answer.ofDecode (bookOf j)
  let pinned ← identsOf j "pinned"
  Answer.ofEncode (match Step.recalculate steps book pinned with
    | .ok r => recalculationJson r
    | .error f => pure (faultJson f))

/-- `apply_edit`. -/
def applyEditAnswer (withRetryable : Bool) (j : Json) : Answer Json := do
  let steps ← stepsOf j
  let labels ← currentLabels
  let id ← Answer.ofDecode (field j "step" (asIdent labels))
  let edit ← Answer.ofDecode (getD j "edit" asEdit {})
  let res ← Answer.ofDecode (resolverOf j)
  let user ← Answer.ofDecode (getD j "user" asU64 1)
  Answer.ofEncode (outcomeJson withRetryable (Step.applyEdit steps id edit res user)
    fun steps => do pure (single "steps" (← stepsJson steps)))

/-- A job matched to a step, as given to `pinned_steps`. -/
def asMatchRef (labels : Labels) (j : Json) : Decode StepMatch := do
  let step ← field j "step" (asIdent labels)
  let job ← getD j "job" asU64 0
  let runs ← getD j "runs" asU64 0
  pure { plan := .given 0, step, job, runs }

/-- `pinned_steps`. -/
def pinnedAnswer (j : Json) : Answer Json := do
  let steps ← stepsOf j
  let labels ← currentLabels
  let refs ← Answer.ofDecode (getD j "matches" (asList (asMatchRef labels)) [])
  match pinnedSteps steps refs with
  | .ok ids => Answer.ofEncode (do pure (single "pinned" (← identSet ids)))
  | .error f => pure (faultJson f)

/-- One operation on a dirty set, and what it answers. -/
def trackerOp (d : DirtySet) (op : Json) : Answer (DirtySet × Json) := do
  let labels ← currentLabels
  let (name, arg) ← Answer.ofDecode (match op with
    | .arr (.str n :: rest) => pure (n, rest.head?)
    | _ => throw "bad tracker op")
  let idArg : Answer Ident := Answer.ofDecode (match arg with
    | some a => asIdent labels a
    | none => throw "missing tracker argument")
  match name with
  | "mark" => pure (d.mark (← idArg), .null)
  | "is_dirty" => pure (d, .bool (d.isDirty (← idArg)))
  | "len" => pure (d, .nat d.size)
  | "is_empty" => pure (d, .bool d.isEmpty)
  | "clear" => pure ({}, .null)
  | "take" => pure ({}, ← Answer.ofEncode (identSet d.ids))
  | other =>
    let q := Text.quoted other
    Answer.ofDecode (throw s!"unknown tracker op {q}")

/-- `dirty_tracker`. -/
def trackerAnswer (j : Json) : Answer Json := do
  let ops ← Answer.ofDecode (getD j "ops" (asList pure) [])
  let (_, results) ← ops.foldlM (fun (acc : DirtySet × List Json) op => do
    let (d, r) ← trackerOp acc.1 op
    pure (d, r :: acc.2)) ({}, [])
  pure (single "results" (.arr results.reverse))

def driftJson (d : Drift) : Json :=
  .obj [("configured_facility", .opt Json.nat d.configured), ("observed_facility", .nat d.observed),
    ("mat", decimalJson d.material), ("time", decimalJson d.time)]

/-- A job matched to a step. -/
def stepMatchJson (m : StepMatch) : Encode Json := do
  let plan ← identJson m.plan
  let step ← identJson m.step
  pure (.obj [("plan", plan), ("step", step), ("job", .nat m.job), ("runs", .nat m.runs),
    ("drift", .opt driftJson m.drift)])

def sortedStrings (xs : List String) : List String := sortBy (fun a b => !(b < a)) xs

/-- The members of a match outcome. -/
def matchOutcomeMembers (o : MatchOutcome) : Encode (List (String × Json)) := do
  let plan ← identJson o.plan
  let steps ← stepsJson o.steps
  let assigned ← o.assignments.mapM stepMatchJson
  let adapted ← identSet o.adapted
  let corrected ← identSet o.corrected
  let changed ← identSet o.changed
  pure [("plan", plan), ("steps", steps), ("matches", .arr assigned), ("adapted", adapted),
    ("corrected", corrected), ("changed", changed),
    ("messages", .arr ((sortedStrings o.messages).map .str)),
    ("plan_changed", .bool o.planChanged)]

def matchOutcomeJson (o : MatchOutcome) : Encode Json := do
  pure (.obj (← matchOutcomeMembers o))

/-- `match_plan`. -/
def matchPlanAnswer (withRetryable : Bool) (j : Json) : Answer Json :=
  withConfig withRetryable j fun config => do
    let steps ← stepsOf j
    let book ← Answer.ofDecode (bookOf j)
    let labels ← currentLabels
    let planId ← Answer.ofDecode (getD j "plan" (asIdent labels) (.given 1))
    let user ← Answer.ofDecode (getD j "user" asU64 1)
    let characters ← Answer.ofDecode (getD j "characters" (asList asU64) [])
    let since ← Answer.ofDecode (getD j "since" asTime 0)
    let claimed ← Answer.ofDecode (getD j "claimed" (asList asU64) [])
    let world ← Answer.ofDecode (worldOf j)
    let res ← Answer.ofDecode (resolverOf j)
    let plan : Plan := { id := planId, owner := user, steps }
    let run := matchPlan config plan book { user, characters, since } claimed world res
    outcomeAnswer withRetryable run fun (o, claimed) => do
      let withRuns ← Answer.ofDecode (flagD j "with_matched_runs" false)
      Answer.ofEncode do
        let members ← matchOutcomeMembers o
        let members := members ++ [("claimed", Json.nats (ascendingSet claimed))]
        if withRuns then
          match o.steps.mapM fun s => do pure (s.id, ← o.matchedRuns s.id) with
          | .ok runs => do
            let runs ← runs.mapM fun (id, n) => do pure (Json.arr [← identJson id, .nat n])
            pure (.obj (members ++ [("matched_runs", .arr runs)]))
          | .error f => pure (faultJson f)
        else pure (.obj members)

def asWindow (j : Json) : Decode Window := do
  let (start, finish) ← asPair asTime asTime j
  pure ⟨start, finish⟩

def windowJson (w : Window) : Json := .arr [.int w.start, .int w.finish]

/-- Units of a job allocated to a sale. -/
def profitMatchJson (m : ProfitMatch) : Json :=
  .obj [("job", .nat m.job), ("tx", .nat m.sale), ("material", .nat m.material),
    ("quantity", .nat m.quantity), ("revenue", decimalJson m.revenue),
    ("material_cost", decimalJson m.materialCost), ("job_cost_share", decimalJson m.jobCostShare),
    ("tax", decimalJson m.tax), ("profit", decimalJson m.profit), ("sold", .int m.sold),
    ("cost_source", .str m.costSource.name)]

/-- The summary of a product. -/
def summaryJson (s : ProfitSummary) : Json :=
  .obj [("material", .nat s.material), ("units", .nat s.units), ("revenue", decimalJson s.revenue),
    ("material_cost", decimalJson s.materialCost), ("job_cost", decimalJson s.jobCost),
    ("tax", decimalJson s.tax), ("profit", decimalJson s.profit),
    ("margin_pct", decimalJson s.margin), ("estimated_lines", .nat s.estimatedLines)]

/-- The members of a profit report; adding up the total profit may break down. -/
def reportMembers (r : ProfitReport) : Except Fault (List (String × Json)) := do
  let total ← r.totalProfit
  pure [("window", windowJson r.window), ("matches", .arr (r.allocations.map profitMatchJson)),
    ("unmatched_jobs", .arr (r.unmatchedJobs.map fun u =>
      .obj [("job", .nat u.job), ("material", .nat u.material), ("left", .nat u.left)])),
    ("unmatched_sales", .arr (r.unmatchedSales.map fun u =>
      .obj [("tx", .nat u.sale), ("material", .nat u.material), ("left", .nat u.left)])),
    ("summaries", .arr (r.summaries.map summaryJson)), ("total_profit", decimalJson total)]

/-- A profit request: user, products, characters, window and the start of the jobs. The
default start is worked out from the window before a given start is read, and working it
out may break down. -/
def asProfitRequest (j : Json) : Decode (Except Fault ProfitRequest) := do
  let user ← getD j "user" asU64 1
  let materials ← getD j "materials" (asList asU32) []
  let characters ← getD j "characters" (asList asU64) []
  let window ← field j "window" asWindow
  match ProfitRequest.lookbackStart window with
  | .error f => pure (.error f)
  | .ok start =>
    let given ← getOpt j "jobs_since" asTime
    pure (.ok { user, materials, characters, window, jobsSince := given.getD start })

/-- `profit`. -/
def profitAnswer (withRetryable : Bool) (j : Json) : Answer Json :=
  withConfig withRetryable j fun config => do
    match ← Answer.ofDecode (asProfitRequest j) with
    | .error f => pure (faultJson f)
    | .ok req =>
      let world ← Answer.ofDecode (worldOf j)
      let report : Except Fault (ProfitReport × List (String × Json)) := do
        let r ← computeProfit config req world
        pure (r, ← reportMembers r)
      match report with
      | .error f => pure (faultJson f)
      | .ok (r, members) =>
        let lookup ← Answer.ofDecode (flagD j "with_summary_lookup" false)
        if lookup then
          pure (.obj (members ++ [("summary_lookup", .arr (req.materials.map fun m =>
            .arr [.nat m, .opt (Json.nat ∘ ProfitSummary.units) (r.summary? m)]))]))
        else pure (.obj members)

end Api

end Fabrication
