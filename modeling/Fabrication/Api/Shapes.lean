import Fabrication.Api.Codec
import Fabrication.Facility
import Fabrication.Skill

/-!
# Shapes of recipes, facilities, bonuses and skill tables

How the planner's reference data is written in requests and answers.

* A recipe is `{"id", "activity"?, "inputs": [[material, quantity]], "outputs": [...], "time"}`.
* A facility rule is `{"activity"?, "mat", "time", "materials"?}`; without `materials` it
  applies to all materials.
* A facility is `{"id", "name"?, "rules"}`; registries are `[{"user", "facilities"}]`.
* A bonus is `{"mat", "time", "facility"}`, the percentages as decimal text.
* A skill table is `[{"activity", "skill", "pct"}]`; when absent or not a list, the
  standard table.
-/

namespace Fabrication

namespace Api

def asPortion (j : Json) : Decode Portion := do
  let (m, q) ← asPair asU32 asU64 j
  pure ⟨m, q⟩

/-- A recipe. -/
def asRecipe (j : Json) : Decode Recipe := do
  pure {
    id := ← field j "id" asU32
    activity := ← activityD j "activity"
    inputs := ← getD j "inputs" (asList asPortion) []
    outputs := ← getD j "outputs" (asList asPortion) []
    baseDuration := ← getD j "time" asU64 0 }

def recipeJson (r : Recipe) : Json :=
  let portions (ps : List Portion) := Json.arr (ps.map fun p => .arr [.nat p.material, .nat p.quantity])
  .obj [("id", .nat r.id), ("activity", .str r.activity.name), ("inputs", portions r.inputs),
    ("outputs", portions r.outputs), ("time", .nat r.baseDuration)]

/-- A facility rule. -/
def asRule (j : Json) : Decode FacilityRule := do
  pure {
    activity := ← activityD j "activity"
    materials := ← getOpt j "materials" (asList asU32)
    material := ← getD j "mat" asDecimal Decimal.zero
    time := ← getD j "time" asDecimal Decimal.zero }

/-- A facility. -/
def asFacility (j : Json) : Decode Facility := do
  pure {
    id := ← field j "id" asU64
    name := textD j "name" ""
    rules := ← getD j "rules" (asList asRule) [] }

/-- The facilities of a registry, later ones replacing earlier ones with the same id. -/
def asRegistry (j : Json) : Decode Registry := do
  pure (Registry.ofList (← asList asFacility j))

/-- Registries by user. -/
def asResolver (j : Json) : Decode Resolver := do
  let entries ← asList (fun e => do
    let user ← field e "user" asU64
    let reg ← getD e "facilities" asRegistry {}
    pure (user, reg)) j
  pure (entries.foldl (fun res (u, r) => res.insert u r) {})

def resolverOf (j : Json) : Decode Resolver := getD j "registries" asResolver {}

/-- A bonus. -/
def asBonus (j : Json) : Decode Bonus := do
  pure {
    material := ← getD j "mat" asDecimal Decimal.zero
    time := ← getD j "time" asDecimal Decimal.zero
    facility := ← getOpt j "facility" asU64 }

def bonusJson (b : Bonus) : Json :=
  .obj [("mat", decimalJson b.material), ("time", decimalJson b.time),
    ("facility", .opt Json.nat b.facility)]

/-- A skill table entry: its activity, skill and percentage. -/
def asSkillEntry (j : Json) : Decode (Activity × SkillBonus) := do
  let a ← field j "activity" asActivity
  let skill ← field j "skill" asU32
  let pct ← field j "pct" asDecimal
  pure (a, ⟨skill, pct⟩)

/-- The `skill_table` member: a list of entries, or the standard table when it is absent. -/
def skillTableOf (j : Json) : Decode SkillTable := do
  match ← getOpt j "skill_table" (asList asSkillEntry) with
  | some entries => pure ⟨entries⟩
  | none => pure SkillTable.standard

def asLevels (j : Json) : Decode SkillLevels := do
  pure ⟨← asList (asPair asU32 asU8) j⟩

end Api

end Fabrication
