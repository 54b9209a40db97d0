import Fabrication.Api.Matching

/-!
# Answers of the plan service and of plan queries

`service` runs a list of operations against one plan service and answers each in its slot;
an operation that is refused answers its error there and the list goes on with the service
it left, and one that cannot be read answers `BadInput` and leaves the service as it was. `plan_query` builds a plan from the request and asks it about its steps.
-/

namespace Fabrication

namespace Api

/-- A plan as written in answers. -/
def planJson (p : Plan) : Encode Json := do
  let id ← identJson p.id
  let steps ← stepsJson p.steps
  pure (.obj [("id", id), ("owner", .nat p.owner), ("name", .str p.name),
    ("created", .int p.created), ("targets", .arr (p.targets.map targetJson)),
    ("excluded", Json.nats p.excluded), ("steps", steps)])

/-- A plan with the given identifier described by a request: owner, name, creation time,
targets and excluded materials. -/
def asPlan (id : Ident) (j : Json) : Decode Plan := do
  let owner ← getD j "owner" asU64 1
  let name := textD j "name" "plan"
  let created ← getD j "created" asTime 0
  let targets ← getD j "targets" (asList asTarget) []
  let excluded ← getD j "excluded" (asList asU32) []
  pure { id, owner, name, created, targets, excluded := ascendingSet excluded }

/-- `plan_query`. -/
def planQueryAnswer (j : Json) : Answer Json := do
  let labels ← currentLabels
  let id ← Answer.ofDecode (getD j "plan" (asIdent labels) (.given 1))
  let plan ← Answer.ofDecode (asPlan id j)
  let steps ← stepsOf j
  let lookup ← identsOf j "lookup"
  let products ← Answer.ofDecode (getD j "products" (asList asU32) [])
  let plan := { plan with steps }
  Answer.ofEncode do
    let planText ← planJson plan
    let stepInfo ← plan.steps.mapM fun s => do
      let id ← identJson s.id
      let group ← match s.group with
        | some g => identJson g
        | none => pure Json.null
      pure (Json.obj [("id", id), ("key", keyJson s.key), ("is_copy", .bool s.isCopy),
        ("is_split", .bool s.isSplit), ("group", group),
        ("total_duration", .opt Json.nat s.totalDuration), ("bonus", bonusJson s.bonus)])
    let found := lookup.map fun id => Json.opt (fun (s : Step) =>
      .arr [.nat s.recipe, .str s.activity.name, .nat s.runs]) (plan.step? id)
    let producing ← products.mapM fun m => do
      let ids ← (plan.stepsFor m).mapM fun s => identJson s.id
      pure (Json.arr [.nat m, .arr ids])
    pure (.obj [("plan", planText), ("steps", .arr stepInfo), ("lookup", .arr found),
      ("products", .arr producing)])

/-- A plan service over the request's settings and world, with an empty store. -/
def serviceOf (config : EngineConfig) (j : Json) : Decode Service := do
  let table ← skillTableOf j
  let world ← worldOf j
  let resolver ← resolverOf j
  pure { config, table, resolver, world }

def okJson : Json := single "ok" (.bool true)

/-- One operation of a service: its answer and the service after it, or the breakdown that
ends the whole list. -/
def serviceOp (withRetryable : Bool) (svc : Service) (op : Json) :
    Answer (Except Fault (Json × Service)) := do
  let labels ← currentLabels
  let name := textD op "op" ""
  let answerOf {α : Type} (o : EStateM.Result Failure Service α)
      (f : α → Except Fault (Encode Json)) : Answer (Except Fault (Json × Service)) :=
    match o with
    | .ok a t =>
      match f a with
      | .ok e => do pure (.ok (← Answer.ofEncode e, t))
      | .error x => pure (.error x)
    | .error (.fault x) _ => pure (.error x)
    | .error (.rejected e) t => do pure (.ok (← Answer.ofEncode (planErrorJson withRetryable e), t))
  let done (answer : Json) (t : Service) : Answer (Except Fault (Json × Service)) :=
    pure (.ok (answer, t))
  match name with
  | "create_plan" =>
    let id ← Answer.ofDecode (field op "plan" (asIdent labels))
    let plan ← Answer.ofDecode (asPlan id op)
    let operators ← Answer.ofDecode (getD op "operators" (asList asU64) [])
    answerOf ((Service.createPlan plan operators).run svc) fun c => .ok do
      pure (.obj [("steps", ← stepsJson c.steps), ("raw_materials", amountsJson c.raw),
        ("warnings", .arr (c.warnings.map warningJson))])
  | "update_step" =>
    let planId ← Answer.ofDecode (field op "plan" (asIdent labels))
    let stepId ← Answer.ofDecode (field op "step" (asIdent labels))
    let edit ← Answer.ofDecode (getD op "edit" asEdit {})
    let operators ← Answer.ofDecode (getD op "operators" (asList asU64) [])
    answerOf ((Service.updateStep planId stepId edit operators).run svc) fun r => .ok do
      let steps ← stepsJson r.steps
      pure (.obj [("steps", steps), ("changed", ← identSet r.changed)])
  | "delete_plan" =>
    let planId ← Answer.ofDecode (field op "plan" (asIdent labels))
    answerOf ((Service.deletePlan planId).run svc) fun _ => .ok (pure okJson)
  | "match_jobs" =>
    let user ← Answer.ofDecode (getD op "user" asU64 1)
    let characters ← Answer.ofDecode (getD op "characters" (asList asU64) [])
    let since ← Answer.ofDecode (getD op "since" asTime 0)
    answerOf ((Service.matchJobs { user, characters, since }).run svc) fun os => .ok do
      pure (single "outcomes" (.arr (← os.mapM matchOutcomeJson)))
  | "match_plan_jobs" =>
    let planId ← Answer.ofDecode (field op "plan" (asIdent labels))
    let characters ← Answer.ofDecode (getD op "characters" (asList asU64) [])
    let since ← Answer.ofDecode (getD op "since" asTime 0)
    answerOf ((Service.matchPlanJobs planId characters since).run svc) (.ok ∘ matchOutcomeJson)
  | "compute_profit" =>
    let request ← Answer.ofDecode (asProfitRequest op)
    let run : ServiceOp ProfitReport := do
      let req ← ServiceOp.lift (Outcome.ofFault request)
      Service.computeProfit req
    answerOf (run.run svc) fun r => (reportMembers r).map (pure ∘ Json.obj)
  | "load_plan" =>
    let planId ← Answer.ofDecode (field op "plan" (asIdent labels))
    answerOf ((ServiceOp.lift (Outcome.ofPlan (svc.store.loadPlan planId))).run svc) (.ok ∘ planJson)
  | "plans_for_user" =>
    let user ← Answer.ofDecode (getD op "user" asU64 1)
    let ids ← Answer.ofEncode ((svc.store.plansForUser user).mapM fun p => identJson p.id)
    done (single "plans" (.arr ids)) svc
  | "job_matches" =>
    let planId ← Answer.ofDecode (field op "plan" (asIdent labels))
    let ms ← Answer.ofEncode ((svc.store.jobMatchesOf planId).mapM stepMatchJson)
    done (single "matches" (.arr ms)) svc
  | "claimed_jobs" =>
    let user ← Answer.ofDecode (getD op "user" asU64 1)
    let except ← Answer.ofDecode (getOpt op "except" (asIdent labels))
    done (single "claimed" (Json.nats (svc.store.claimedJobs user except))) svc
  | "profit_matches" =>
    let user ← Answer.ofDecode (getD op "user" asU64 1)
    let window ← Answer.ofDecode (field op "window" asWindow)
    done (single "matches" (.arr ((svc.store.profitMatchesIn user window).map profitMatchJson)))
      svc
  | "set_fail_commits" =>
    let fail ← Answer.ofDecode (flagD op "fail" true)
    done okJson (svc.setFailWrites fail)
  | "add_job" =>
    let job ← Answer.ofDecode (field op "job" asJob)
    done okJson { svc with world := svc.world.addJob job }
  | "add_sale" =>
    let sale ← Answer.ofDecode (field op "sale" asSale)
    done okJson { svc with world := svc.world.addSale sale }
  | "set_price" =>
    let m ← Answer.ofDecode (field op "material" asU32)
    let price ← Answer.ofDecode (field op "price" asDecimal)
    done okJson { svc with world := svc.world.setPrice m price }
  | "engine_config" => done (single "config" (configJson svc.config)) svc
  | other =>
    let q := Text.quoted other
    Answer.ofDecode (throw s!"unknown service op {q}")

/-- Run one operation; one that cannot be read answers `BadInput` in its slot, and a
breakdown ends the list. -/
def serviceStep (withRetryable : Bool) (acc : Except Fault (Service × List Json)) (op : Json) :
    Answer (Except Fault (Service × List Json)) := fun labels =>
  match acc with
  | .error f => .ok (.error f, labels)
  | .ok (svc, results) =>
    match (serviceOp withRetryable svc op).run labels with
    | .ok (.ok (answer, next), labels) => .ok (.ok (next, results ++ [answer]), labels)
    | .ok (.error f, labels) => .ok (.error f, labels)
    | .error e => .ok (.ok (svc, results ++ [badInputJson e]), labels)

/-- `service`: the answers of the operations in order; a breakdown in one of them is the
answer of the whole request. -/
def serviceAnswer (withRetryable : Bool) (j : Json) : Answer Json :=
  withConfig withRetryable j fun config => do
    let svc ← Answer.ofDecode (serviceOf config j)
    let ops ← Answer.ofDecode (getD j "ops" (asList pure) [])
    let run ← ops.foldlM (serviceStep withRetryable) (.ok (svc, []))
    pure (faultOr run fun (_, results) => single "results" (.arr results))

end Api

end Fabrication
