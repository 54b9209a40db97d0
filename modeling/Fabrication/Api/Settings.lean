import Fabrication.Api.Basic
import Fabrication.Config.Text
import Fabrication.Json.Read

/-!
# Answers about the configuration

A configuration is written with its settings under their names, decimals as text and the
absent duration ceiling or cost ratio as `null`. A request may carry a `config` object; it
is read as configuration text with its members sorted by name, and a configuration that
cannot be read or is out of range refuses the whole request.
-/

namespace Fabrication

namespace Api

/-- A configuration as written in answers. -/
def configJson (c : EngineConfig) : Json :=
  .obj [("child_build_efficiency", .nat c.childBuildEfficiency),
    ("child_convert_efficiency", .nat c.childConvertEfficiency),
    ("child_time_efficiency", .nat c.childTimeEfficiency),
    ("fallback_cost_ratio", .opt decimalJson c.fallbackCostRatio),
    ("include_copy_steps", .bool c.includeCopySteps),
    ("match_adaptation", .str c.matchPolicy.name),
    ("max_depth", .nat c.maxDepth),
    ("max_job_duration_secs", .opt Json.nat c.maxJobDuration),
    ("sales_tax_rate", decimalJson c.salesTaxRate),
    ("split_strategy", .str c.splitStrategy.name)]

def configWithChildren (c : EngineConfig) (extra : List (String × Json)) : Json :=
  .obj ([("config", configJson c), ("child_me_build", .nat (c.childMaterialEfficiency false)),
    ("child_me_convert", .nat (c.childMaterialEfficiency true))] ++ extra)

/-- The text of a document given as configuration: a string is the text itself, any other
document is spelt as a JSON writer spells it, keys in order. -/
def configText : Json → String
  | .str s => s
  | other => other.sortKeys.render

/-- The `config` member of a request: the default when absent, else read from its text as a
JSON writer spells it (keys in order). -/
def configOf (j : Json) : Except PlanError EngineConfig :=
  match member? j "config" with
  | none => .ok {}
  | some c => EngineConfig.ofText c.sortKeys.render

/-- Apply one builder call `[method, argument]`. -/
def applyBuilder (c : EngineConfig) (call : Json) : Decode EngineConfig := do
  match call with
  | .arr [method, arg] =>
    match textOr method "" with
    | "with_child_build_efficiency" => pure { c with childBuildEfficiency := ← asU8 arg }
    | "with_child_time_efficiency" => pure { c with childTimeEfficiency := ← asU8 arg }
    | "with_max_job_duration" =>
      match arg with
      | .null => pure { c with maxJobDuration := none }
      | _ => pure { c with maxJobDuration := some (← asU64 arg) }
    | "with_split_strategy" => pure { c with splitStrategy := ← strategyNamed (textOr arg "") }
    | "with_copy_steps" => pure { c with includeCopySteps := ← asBool arg }
    | "with_max_depth" => pure { c with maxDepth := ← asU32 arg }
    | "with_sales_tax_rate" => pure { c with salesTaxRate := ← asDecimal arg }
    | "with_fallback_cost_ratio" => pure { c with fallbackCostRatio := some (← asDecimal arg) }
    | "with_match_adaptation" => pure { c with matchPolicy := ← policyNamed (textOr arg "") }
    | m =>
      let q := Text.quoted m
      throw s!"unknown builder {q}"
  | _ =>
    let t := call.render
    throw s!"not a pair: {t}"

/-- `config` and `config_builder`; the builder reports whether its configuration is valid in
its `valid` member, without saying whether a refusal is worth retrying. -/
def settingsAnswer (withRetryable : Bool) (op : String) (j : Json) : Answer Json := do
  match op with
  | "config" =>
    let text ← Answer.ofDecode (configText <$> required j "json")
    match EngineConfig.ofText text with
    | .ok c => pure (configWithChildren c [])
    | .error e => Answer.ofEncode (planErrorJson withRetryable e)
  | _ =>
    let calls ← Answer.ofDecode (getD j "calls" (asList pure) [])
    let c ← Answer.ofDecode (calls.foldlM applyBuilder {})
    let valid ← match c.validate with
      | .ok () => pure Json.null
      | .error e => Answer.ofEncode (planErrorJson false e)
    pure (configWithChildren c [("valid", valid)])

end Api

end Fabrication
