import Fabrication.Api.Shapes
import Fabrication.Catalog
import Fabrication.Step

/-!
# Shapes of the world, targets and catalogue questions

* Times are whole numbers of Unix seconds.
* A job is `{"id", "recipe", "activity"?, "product", "runs", "started", "ended"?, "status"?,
  "facility"?, "cost", "character"}`: an end time makes it delivered unless a status is
  given.
* A sale is `{"id", "material", "quantity", "price", "sold", "character"}`.
* The world is read from the members `recipes`, `skills` (`[{"character", "levels"}]`),
  `prices` (`[[material, price]]`), `jobs` and `sales` of a request.
* A target is `{"material", "quantity", "me", "te"}`, a bonus given by the user
  `{"material", "mat", "time", "facility"?}`.

The `catalog` request asks the catalogue a list of questions and answers each in its slot;
the reads spent so far can be asked for too.
-/

namespace Fabrication

namespace Api

/-- A time in Unix seconds: a whole number of 64 bits with sign, within the calendar's
range. -/
def asTime (j : Json) : Decode Int :=
  match j with
  | .int n =>
    if n < -(Int.pow 2 63) || n ≥ Int.pow 2 63 then
      let t := j.render
      throw s!"not an integer: {t}"
    else if Calendar.contains n then pure n
    else throw s!"bad timestamp: {n}"
  | other =>
    let t := other.render
    throw s!"not an integer: {t}"

/-- A job status named by a string. -/
def asStatus (j : Json) : Decode JobStatus :=
  match j with
  | .str s =>
    match JobStatus.ofName? s with
    | some st => pure st
    | none =>
      let t := j.render
      throw s!"bad status: {t}"
  | other =>
    let t := other.render
    throw s!"bad status: {t}"

/-- A job. -/
def asJob (j : Json) : Decode Job := do
  let id ← field j "id" asU64
  let recipe ← field j "recipe" asU32
  let activity ← activityD j "activity"
  let product ← getD j "product" asU32 0
  let runs ← getD j "runs" asU64 0
  let started ← getD j "started" asTime 0
  let ended ← getOpt j "ended" asTime
  let status ← getD j "status" asStatus (if ended.isSome then .delivered else .active)
  let facility ← getOpt j "facility" asU64
  let cost ← getD j "cost" asDecimal Decimal.zero
  let character ← getD j "character" asU64 0
  pure { id, recipe, activity, product, runs, status, started, ended, facility, cost, character }

/-- A sale. -/
def asSale (j : Json) : Decode Sale := do
  let id ← field j "id" asU64
  let material ← field j "material" asU32
  let quantity ← getD j "quantity" asU64 0
  let price ← getD j "price" asDecimal Decimal.zero
  let sold ← getD j "sold" asTime 0
  let character ← getD j "character" asU64 0
  pure { id, material, quantity, price, sold, character }

def asSkills (j : Json) : Decode (Nat × SkillLevels) := do
  let c ← field j "character" asU64
  let levels ← getD j "levels" asLevels {}
  pure (c, levels)

/-- The world members of a request. -/
def worldOf (j : Json) : Decode World := do
  let recipes ← getD j "recipes" (asList asRecipe) []
  let skills ← getD j "skills" (asList asSkills) []
  let prices ← getD j "prices" (asList (asPair asU32 asDecimal)) []
  let jobs ← getD j "jobs" (asList asJob) []
  let sales ← getD j "sales" (asList asSale) []
  pure { recipes, skills, prices, jobs, sales }

/-- A target. -/
def asTarget (j : Json) : Decode Target := do
  let material ← field j "material" asU32
  let quantity ← getD j "quantity" asU64 0
  let me ← getD j "me" asU8 0
  let te ← getD j "te" asU8 0
  pure { material, quantity, me, te }

def targetJson (t : Target) : Json :=
  .obj [("material", .nat t.material), ("quantity", .nat t.quantity), ("me", .nat t.me),
    ("te", .nat t.te)]

def asOverride (j : Json) : Decode (Nat × Bonus) := do
  let m ← field j "material" asU32
  let b ← asBonus j
  pure (m, b)

def asKey (j : Json) : Decode RecipeKey := do
  let (id, a) ← asPair asU32 asActivity j
  pure ⟨id, a⟩

def keyJson (k : RecipeKey) : Json := .arr [.nat k.id, .str k.activity.name]

def portionsJson (ps : List Portion) : Json :=
  .arr (ps.map fun p => .arr [.nat p.material, .nat p.quantity])

/-- One catalogue question, answered with the reads spent so far. -/
def catalogQuery (c : Catalog) (w : World) (reads : Nat) (q : Json) : Decode (Json × Nat) := do
  match textD q "q" "" with
  | "find_producer" =>
    let m ← field q "material" asU32
    let kinds ← getD q "kinds" (asList asActivity) []
    pure (.arr ((c.findProducer m kinds).map recipeJson), reads + Catalog.producerReads)
  | "find_producers" =>
    let ms ← getD q "materials" (asList asU32) []
    let kinds ← getD q "kinds" (asList asActivity) []
    let found := (c.findProducers ms kinds).map fun (m, rs) => Json.arr [.nat m, .arr (rs.map recipeJson)]
    pure (.arr found, reads + c.producersReads ms)
  | "find_recipe" =>
    let id ← field q "recipe" asU32
    let a ← activityD q "activity"
    pure (.opt recipeJson (c.findRecipe ⟨id, a⟩), reads)
  | "find_recipes" =>
    let keys ← getD q "keys" (asList asKey) []
    pure (.arr ((c.findRecipes keys).map recipeJson), reads + c.recipesReads)
  | "find_inputs" =>
    let id ← field q "recipe" asU32
    let a ← activityD q "activity"
    pure (portionsJson (c.findInputs ⟨id, a⟩), reads)
  | "supports_duplicate" =>
    let id ← field q "recipe" asU32
    pure (.bool (c.supportsDuplicate id), reads)
  | "levels" =>
    let ch ← field q "character" asU64
    pure (.arr ((w.levelsOf ch).sorted.map fun (s, l) => Json.arr [.nat s, .nat l]), reads)
  | "prices" =>
    let ms ← getD q "materials" (asList asU32) []
    pure (.arr ((w.pricesOf ms).map fun (m, p) => Json.arr [.nat m, .opt decimalJson p]), reads)
  | "jobs_for" =>
    let id ← field q "recipe" asU32
    let cs ← getD q "characters" (asList asU64) []
    let since ← getD q "since" asTime 0
    pure (.nats ((w.jobsFor id cs since).map (·.id)), reads)
  | "sales" =>
    let m ← field q "material" asU32
    let cs ← getD q "characters" (asList asU64) []
    let since ← getD q "since" asTime 0
    pure (.nats ((w.salesOf m cs since).map (·.id)), reads)
  | "reads" => pure (.nat reads, reads)
  | other =>
    let t := Text.quoted other
    throw s!"unknown catalog query {t}"

/-- `catalog`: a list of questions to the world's catalogue. -/
def catalogAnswer (j : Json) : Decode Json := do
  let w ← worldOf j
  let basic ← flagD j "basic" false
  let c : Catalog := { recipes := w.recipes, answersBatches := !basic }
  let qs ← getD j "queries" (asList pure) []
  let (results, _) := qs.foldl (fun (acc : List Json × Nat) q =>
    match catalogQuery c w acc.2 q with
    | .ok (r, reads) => (acc.1 ++ [r], reads)
    | .error e => (acc.1 ++ [badInputJson e], acc.2)) ([], 0)
  pure (single "results" (.arr results))

end Api

end Fabrication
