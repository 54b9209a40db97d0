import Fabrication.Api.Shapes
import Fabrication.Quantity
import Fabrication.Duration
import Fabrication.Config

/-!
# Answers of the formulas and lookups

Requests that evaluate one rule of the planner: runs for a quantity, input use, run
duration, splitting of runs, recipe lookups, facility bonuses and their order, skill
multipliers and the match adaptation policy.
-/

namespace Fabrication

namespace Api

/-- A split strategy by name. -/
def strategyNamed (s : String) : Decode SplitStrategy :=
  match SplitStrategy.ofName? s with
  | some st => pure st
  | none =>
    let q := Text.quoted s
    throw s!"bad strategy {q}"

/-- A match policy by name. -/
def policyNamed (s : String) : Decode MatchPolicy :=
  match MatchPolicy.ofName? s with
  | some p => pure p
  | none =>
    let q := Text.quoted s
    throw s!"bad policy {q}"

def splitPartLimit : Nat := 100000

/-- `runs_for`, `adjusted_quantity`, `required_quantity`, `duration_per_run`, `split_runs`. -/
def formulaAnswer (op : String) (j : Json) : Decode Json := do
  match op with
  | "runs_for" =>
    let q ← getD j "quantity" asU64 0
    let out ← getD j "out" asU64 0
    pure (single "runs" (.nat (runsFor q out)))
  | "adjusted_quantity" =>
    let base ← getD j "base" asU64 0
    let runs ← getD j "runs" asU64 0
    let me ← getD j "me" asU8 0
    let bonus ← getD j "bonus" asDecimal Decimal.zero
    pure (faultOr (adjustedQuantity base runs me bonus) (single "quantity" ∘ .nat))
  | "required_quantity" =>
    let base ← getD j "base" asU64 0
    let runs ← getD j "runs" asU64 0
    let a ← activityD j "activity"
    let me ← getD j "me" asU8 0
    let bonus ← getD j "bonus" asDecimal Decimal.zero
    pure (faultOr (requiredQuantity base runs a me bonus) (single "quantity" ∘ .nat))
  | "duration_per_run" =>
    let base ← getD j "base" asU64 0
    let a ← activityD j "activity"
    let te ← getD j "te" asU8 0
    let tb ← getD j "time_bonus" asDecimal Decimal.zero
    let skill ← getD j "skill" asDecimal Decimal.one
    pure (faultOr (durationPerRun base a te tb skill) (single "secs" ∘ .nat))
  | _ =>
    let runs ← getD j "runs" asU64 0
    let max ← getD j "max_runs" asU64 0
    let st ← strategyNamed (textD j "strategy" "Even")
    if runs / Nat.max max 1 > splitPartLimit then throw "too many parts"
    pure (single "parts" (.nats (splitRuns runs max st)))

/-- `recipe_query`: the lookups of one recipe for one material. -/
def recipeAnswer (j : Json) : Decode Json := do
  let r ← field j "recipe" asRecipe
  let m ← field j "material" asU32
  pure (faultOr (r.inputQuantity m) fun iq => .obj [
    ("output_per_run", .opt Json.nat (r.outputPerRun m)),
    ("input_quantity", .opt Json.nat iq),
    ("produces", .bool (r.produces m)),
    ("primary_output", .opt Json.nat (r.primaryOutput.map (·.material)))])

/-- `facility_bonus`, `best_bonus`, `bonus_at`, `is_better_than`, `skill_multiplier`,
`should_adapt`. -/
def bonusAnswer (withRetryable : Bool) (op : String) (j : Json) : Answer Json := do
  match op with
  | "facility_bonus" =>
    let f ← Answer.ofDecode (field j "facility" asFacility)
    let m ← Answer.ofDecode (field j "material" asU32)
    let a ← Answer.ofDecode (activityD j "activity")
    pure (faultOr (f.bonusFor m a) fun b =>
      .obj [("covers", .bool (f.covers m a)), ("bonus", .opt bonusJson b)])
  | "best_bonus" =>
    let res ← Answer.ofDecode (resolverOf j)
    let user ← Answer.ofDecode (getD j "user" asU64 1)
    let m ← Answer.ofDecode (field j "material" asU32)
    let conv ← Answer.ofDecode (flagD j "is_conversion" false)
    pure (faultOr (res.bestBonus m conv user) (single "bonus" ∘ .opt bonusJson))
  | "bonus_at" =>
    let res ← Answer.ofDecode (resolverOf j)
    let user ← Answer.ofDecode (getD j "user" asU64 1)
    let fac ← Answer.ofDecode (field j "facility" asU64)
    let m ← Answer.ofDecode (field j "material" asU32)
    let conv ← Answer.ofDecode (flagD j "is_conversion" false)
    Answer.ofEncode (outcomeJson withRetryable (res.bonusAt fac m conv user)
      fun b => pure (single "bonus" (bonusJson b)))
  | "is_better_than" =>
    let a ← Answer.ofDecode (field j "a" asBonus)
    let b ← Answer.ofDecode (field j "b" asBonus)
    pure (single "better" (.bool (a.isBetterThan b)))
  | "skill_multiplier" =>
    let t ← Answer.ofDecode (skillTableOf j)
    let a ← Answer.ofDecode (activityD j "activity")
    let l ← Answer.ofDecode (getD j "levels" asLevels {})
    pure (faultOr (t.multiplier a l) (single "multiplier" ∘ decimalJson))
  | _ =>
    let p ← Answer.ofDecode (policyNamed (textD j "policy" "OnAnyDifference"))
    let planned ← Answer.ofDecode (getD j "planned" asU64 0)
    let matched ← Answer.ofDecode (getD j "matched" asU64 0)
    pure (single "adapt" (.bool (p.shouldAdapt planned matched)))

/-- One question to a registry of facilities; a breakdown is kept apart from the answer. A
refusal is answered in the question's slot, without saying whether it is worth retrying. -/
def registryQuery (r : Registry) (q : Json) : Answer (Except Fault Json) := do
  match textD q "q" "" with
  | "best_for" =>
    let m ← Answer.ofDecode (field q "material" asU32)
    let a ← Answer.ofDecode (activityD q "activity")
    pure ((r.bestFor m a).map (.opt bonusJson))
  | "bonus_at" =>
    let f ← Answer.ofDecode (field q "facility" asU64)
    let m ← Answer.ofDecode (field q "material" asU32)
    let a ← Answer.ofDecode (activityD q "activity")
    match r.bonusAt f m a with
    | .ok b => pure (.ok (bonusJson b))
    | .error (.fault e) => pure (.error e)
    | .error (.rejected e) => .ok <$> Answer.ofEncode (planErrorJson false e)
  | "get" =>
    let f ← Answer.ofDecode (field q "facility" asU64)
    pure (.ok (.opt (fun (fac : Facility) =>
      .obj [("name", .str fac.name), ("rules", .nat fac.rules.length)]) (r.get? f)))
  | other =>
    let t := Text.quoted other
    Answer.ofDecode (throw s!"unknown registry query {t}")

/-- `registry`: questions to one registry of facilities. -/
def registryAnswer (j : Json) : Answer Json := do
  let r ← Answer.ofDecode (getD j "facilities" asRegistry {})
  let queries ← Answer.ofDecode (getD j "queries" (asList pure) [])
  -- the questions are asked in order; a breakdown ends the request before the next is read
  let results ← queries.foldlM (fun acc q => match acc with
    | .error f => pure (.error f)
    | .ok rs => do pure ((← registryQuery r q).map (rs ++ [·]))) (.ok [])
  pure (faultOr results fun rs =>
    .obj [("len", .nat r.size), ("is_empty", .bool (r.size == 0)), ("results", .arr rs)])

end Api

end Fabrication
