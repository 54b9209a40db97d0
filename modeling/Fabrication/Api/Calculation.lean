import Fabrication.Api.Steps
import Fabrication.Api.Settings
import Fabrication.Api.Basic

/-!
# Answers of plan calculation

`calculate` runs the whole calculation; `consolidate`, `reconcile` and `schedule` run one
stage on steps or trees given in the request; `tree_stats` gives the figures of trees;
`snapshot` and `load_book_for_steps` show what is read from the catalogue. A configuration
that cannot be read or is out of range makes the answer an `InvalidInput` error.
-/

namespace Fabrication

namespace Api

/-- Run `k` with the request's configuration, or answer the configuration's error. -/
def withConfig (withRetryable : Bool) (j : Json) (k : EngineConfig → Answer Json) :
    Answer Json :=
  match configOf j with
  | .ok c => k c
  | .error e => Answer.ofEncode (planErrorJson withRetryable e)

/-- The answer of a calculation. -/
def calculationJson (stats : Bool) (c : Calculation) : Encode Json := do
  let steps ← stepsJson c.steps
  let base := [("steps", steps), ("raw_materials", amountsJson c.raw),
    ("warnings", .arr (c.warnings.map warningJson)), ("trees", .arr (c.trees.map nodeJson)),
    ("catalog_reads", .nat c.reads)]
  if stats then
    match c.trees.mapM treeStatsJson with
    | .ok s => pure (.obj (base ++ [("tree_stats", .arr s)]))
    | .error f => pure (faultJson f)
  else pure (.obj base)

/-- `calculate`. -/
def calculateAnswer (withRetryable : Bool) (j : Json) : Answer Json :=
  withConfig withRetryable j fun config => do
    let table ← Answer.ofDecode (skillTableOf j)
    let world ← Answer.ofDecode (worldOf j)
    let res ← Answer.ofDecode (resolverOf j)
    let user ← Answer.ofDecode (getD j "user" asU64 1)
    let targets ← Answer.ofDecode (getD j "targets" (asList asTarget) [])
    let excluded ← Answer.ofDecode (getD j "excluded" (asList asU32) [])
    let overrides ← Answer.ofDecode (getD j "overrides" (asList asOverride) [])
    let operators ← Answer.ofDecode (getD j "operators" (asList asU64) [])
    let basic ← Answer.ofDecode (flagD j "basic_catalog" false)
    let catalog : Catalog := { recipes := world.recipes, answersBatches := !basic }
    let req : PlanRequest := { user, targets, excluded, overrides, operators }
    let run := (calculate config table catalog res world req).run {}
    outcomeAnswer withRetryable run fun (c, _) => do
      let stats ← Answer.ofDecode (flagD j "stats" false)
      Answer.ofEncode (calculationJson stats c)

def forestOf (j : Json) : Decode (List Node) := getD j "forest" (asList asNode) []

/-- `consolidate`: steps of a forest, with copy recipes from the request's recipes. -/
def consolidateAnswer (withRetryable : Bool) (j : Json) : Answer Json :=
  withConfig withRetryable j fun config => do
    let forest ← Answer.ofDecode (forestOf j)
    let world ← Answer.ofDecode (worldOf j)
    let roots := forest.flatMap fun t => t.nodes.map (·.head.material)
    let run : Planning (List Step) := do
      let snap ← Planning.ofFault (Snapshot.load { recipes := world.recipes } {} { roots } config)
      Step.ofForest forest snap config
    Answer.ofEncode (outcomeJson withRetryable (run.run {}) fun (steps, _) => do
      pure (single "steps" (← stepsJson steps)))

/-- `reconcile`. -/
def reconcileAnswer (withRetryable : Bool) (j : Json) : Answer Json := do
  let steps ← stepsOf j
  let recipes ← Answer.ofDecode (getD j "recipes" (asList asRecipe) [])
  Answer.ofEncode (outcomeJson withRetryable (Step.reconcile steps (RecipeBook.ofList recipes))
    fun steps => do pure (single "steps" (← stepsJson steps)))

def asMultiplier (j : Json) : Decode (Activity × Decimal) := asPair asActivity asDecimal j

/-- `schedule`: durations and splitting of the request's steps. -/
def scheduleAnswer (withRetryable : Bool) (j : Json) : Answer Json :=
  withConfig withRetryable j fun config => do
    let steps ← stepsOf j
    let recipes ← Answer.ofDecode (getD j "recipes" (asList asRecipe) [])
    let world ← Answer.ofDecode (worldOf j)
    let operators ← Answer.ofDecode (getOpt j "operators" (asList asU64))
    let table ← Answer.ofDecode (if operators.isSome then skillTableOf j else pure SkillTable.standard)
    let multipliers ← Answer.ofDecode (getD j "multipliers" (asList asMultiplier) [])
    let book := RecipeBook.ofList recipes
    let attached : Planning (Scheduler × List Step) := do
      let sched ← match operators with
        | some ops => Planning.ofFault (Scheduler.ofOperators config table world ops)
        | none => pure { config }
      let sched := multipliers.foldl (fun s (a, m) => s.withMultiplier a m) sched
      let steps ← Planning.ofFault (sched.attachDurations steps book)
      pure (sched, steps)
    outcomeAnswer withRetryable (attached.run {}) fun ((sched, steps), supply) => do
      let attachOnly ← Answer.ofDecode (flagD j "attach_only" false)
      let keep ← if attachOnly then pure [] else identsOf j "keep"
      let split : Planning (List Step) :=
        if attachOnly then pure steps else sched.splitExcept steps keep
      Answer.ofEncode (outcomeJson withRetryable (split.run supply) fun (steps, _) => do
        let ms := Activity.all.map fun a =>
          Json.arr [.str a.name, decimalJson (sched.multiplierOf a)]
        pure (.obj [("steps", ← stepsJson steps), ("multipliers", .arr ms)]))

def treeStatsAnswer (j : Json) : Decode Json := do
  let forest ← forestOf j
  pure (faultOr (forest.mapM treeStatsJson) fun s => single "stats" (.arr s))

def bookJson (b : RecipeBook) : Json := .arr (b.sortedKeys.map keyJson)

/-- `snapshot`: what a catalogue snapshot holds. -/
def snapshotAnswer (withRetryable : Bool) (j : Json) : Answer Json :=
  withConfig withRetryable j fun config => do
    let world ← Answer.ofDecode (worldOf j)
    let res ← Answer.ofDecode (resolverOf j)
    let user ← Answer.ofDecode (getD j "user" asU64 1)
    let roots ← Answer.ofDecode (getD j "roots" (asList asU32) [])
    let excluded ← Answer.ofDecode (getD j "excluded" (asList asU32) [])
    let overrides ← Answer.ofDecode (getD j "overrides" (asList asOverride) [])
    let basic ← Answer.ofDecode (flagD j "basic" false)
    let catalog : Catalog := { recipes := world.recipes, answersBatches := !basic }
    match Snapshot.load catalog res { user, roots, excluded, overrides } config with
    | .error f => pure (faultJson f)
    | .ok s =>
      let contains ← Answer.ofDecode (getD j "contains" (asList asKey) [])
      let producers ← Answer.ofDecode (getD j "producers" (asList asU32) [])
      let duplicates ← Answer.ofDecode (getD j "duplicates" (asList asU32) [])
      let bonuses ← Answer.ofDecode (getD j "bonuses" (asList (asPair asU32 asBool)) [])
      pure (.obj [
        ("levels", .nat s.levels), ("catalog_reads", .nat s.reads), ("book", bookJson s.book),
        ("book_len", .nat s.book.size), ("book_empty", .bool (s.book.size == 0)),
        ("contains", .arr (contains.map fun k => .bool (s.book.contains k))),
        ("producer_of", .arr (producers.map fun m =>
          .arr [.nat m, .opt (keyJson ∘ Recipe.key) (s.producerOf m)])),
        ("duplicate_of", .arr (duplicates.map fun id =>
          .arr [.nat id, .opt (Json.nat ∘ Recipe.baseDuration) (s.duplicateOf id)])),
        ("bonus_for", .arr (bonuses.map fun (m, conv) =>
          .arr [.nat m, .bool conv, .opt bonusJson (s.bonusFor m conv)])),
        ("into_book_len", .nat s.book.size)])

/-- `load_book_for_steps`. -/
def loadBookAnswer (j : Json) : Answer Json := do
  let steps ← stepsOf j
  let world ← Answer.ofDecode (worldOf j)
  let (book, reads) := Catalog.bookForSteps { recipes := world.recipes } steps
  pure (.obj [("book", bookJson book), ("catalog_reads", .nat reads)])

end Api

end Fabrication
