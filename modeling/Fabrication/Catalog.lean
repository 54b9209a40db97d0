import Fabrication.World
import Fabrication.Step
import Fabrication.Sort

/-!
# The recipe catalogue

Questions the planner asks about recipes: which recipes make a material, the recipe with a
key, and the same for many materials or keys at once. Asking costs reads. A catalogue that
answers batches counts one read per batch; one that does not answers a batch of materials
by one question per material, each a read, and a batch of keys by lookups that cost
nothing. Looking up a single key is free in both.

The recipes that make a material are listed by key; among recipes with the same key the
catalogue's order is kept. A batch of keys is answered in catalogue order when the
catalogue answers batches (every recipe with a wanted key), and otherwise in the order of
the keys (the first recipe with each key).
-/

namespace Fabrication

/-- The catalogue of recipes. -/
structure Catalog where
  recipes : List Recipe := []
  /-- Whether a batch of questions is answered at once. -/
  answersBatches : Bool := true
  deriving Repr, Inhabited

namespace Catalog

def findProducer (c : Catalog) (material : Nat) (kinds : List Activity) : List Recipe :=
  sortBy (fun a b => !(RecipeKey.lt b.key a.key))
    (c.recipes.filter fun r => kinds.contains r.activity && r.produces material)

def producerReads : Nat := 1

/-- The producers of each material that has some, materials ascending and each once. -/
def findProducers (c : Catalog) (materials : List Nat) (kinds : List Activity) :
    List (Nat × List Recipe) :=
  (ascendingSet materials).filterMap fun m =>
    match c.findProducer m kinds with
    | [] => none
    | rs => some (m, rs)

def producersReads (c : Catalog) (materials : List Nat) : Nat :=
  if c.answersBatches then 1 else materials.length

def findRecipe (c : Catalog) (k : RecipeKey) : Option Recipe := c.recipes.find? (·.key == k)

def findRecipes (c : Catalog) (keys : List RecipeKey) : List Recipe :=
  if c.answersBatches then c.recipes.filter fun r => keys.contains r.key
  else keys.filterMap c.findRecipe

def recipesReads (c : Catalog) : Nat := if c.answersBatches then 1 else 0

def findInputs (c : Catalog) (k : RecipeKey) : List Portion :=
  ((c.findRecipe k).map (·.inputs)).getD []

def supportsDuplicate (c : Catalog) (id : Nat) : Bool := (c.findRecipe ⟨id, .duplicate⟩).isSome

/-- The recipes of the keys of steps, asked for in one batch, and the reads spent; no steps
ask for nothing. -/
def bookForSteps (c : Catalog) (steps : List Step) : RecipeBook × Nat :=
  let keys := steps.map (·.key)
  let keys := keys.foldl (fun acc k => if acc.contains k then acc else acc ++ [k]) []
  if keys.isEmpty then ({}, 0)
  else (RecipeBook.ofList (c.findRecipes keys), c.recipesReads)

end Catalog

end Fabrication
