import Fabrication.Api.Service
import Fabrication.Demo
import Fabrication.Json.Read

/-!
# Answering request lines

One request line is one JSON object with an `op` member naming the request. The answer is one
JSON object on one line: the result, or an error object. A line that is not JSON, or a request
that cannot be read, is answered with a `BadInput` error.
-/

namespace Fabrication

namespace Api

/-- `demo`: what a demonstration program writes and its exit code. -/
def demoAnswer (j : Json) : Answer Json := do
  match Demo.byName? (textD j "name" "") with
  | some program =>
    let t ← Answer.ofEncode program
    pure (.obj [("exit", .nat t.exit), ("stdout", .arr (t.lines.map .str))])
  | none => Answer.ofDecode (throw "unknown demo")

/-- The answer to one request. -/
def answer (j : Json) : Answer Json := do
  let op := textD j "op" ""
  let withRetryable := switchOn j "with_retryable"
  match op with
  | "runs_for" | "adjusted_quantity" | "required_quantity" | "duration_per_run"
  | "split_runs" => Answer.ofDecode (formulaAnswer op j)
  | "recipe_query" => Answer.ofDecode (recipeAnswer j)
  | "facility_bonus" | "best_bonus" | "bonus_at" | "is_better_than" | "skill_multiplier"
  | "should_adapt" => bonusAnswer withRetryable op j
  | "config" | "config_builder" => settingsAnswer withRetryable op j
  | "calculate" => calculateAnswer withRetryable j
  | "consolidate" => consolidateAnswer withRetryable j
  | "reconcile" => reconcileAnswer withRetryable j
  | "schedule" => scheduleAnswer withRetryable j
  | "tree_stats" => Answer.ofDecode (treeStatsAnswer j)
  | "snapshot" => snapshotAnswer withRetryable j
  | "load_book_for_steps" => loadBookAnswer j
  | "catalog" => Answer.ofDecode (catalogAnswer j)
  | "registry" => registryAnswer j
  | "recalculate" => recalculateAnswer j
  | "apply_edit" => applyEditAnswer withRetryable j
  | "pinned_steps" => pinnedAnswer j
  | "dirty_tracker" => trackerAnswer j
  | "match_plan" => matchPlanAnswer withRetryable j
  | "profit" => profitAnswer withRetryable j
  | "plan_query" => planQueryAnswer j
  | "service" => serviceAnswer withRetryable j
  | "demo" => demoAnswer j
  | _ =>
    let q := Text.quoted op
    Answer.ofDecode (throw s!"unknown op {q}")

/-- The answer line for a request line. -/
def respondLine (line : String) : String :=
  match Json.read? line with
  | .error e => (badInputJson s!"invalid JSON: {e}").render
  | .ok j =>
    match (answer j).run {} with
    | .ok (a, _) => a.render
    | .error e => (badInputJson e).render

end Api

end Fabrication
