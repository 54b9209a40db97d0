import Fabrication.Fault
import Fabrication.Sort

/-!
# Recipes

A recipe turns input materials into output materials in one run of an activity. Recipes are
known by their key, an id together with the activity: the same id may have a build recipe and
a duplicate (copy) recipe. A recipe book holds at most one recipe per key; putting a recipe in
replaces the one with the same key.
-/

namespace Fabrication

/-- What a production run does. Only building is affected by material and time efficiency;
conversion (reaction) steps are reconciled against their consumers. -/
inductive Activity where
  | build
  | convert
  | duplicate
  | invent
  deriving DecidableEq, Repr, Inhabited

namespace Activity

/-- Position in the fixed order build, convert, duplicate, invent. -/
def rank : Activity → Nat
  | build => 0
  | convert => 1
  | duplicate => 2
  | invent => 3

def all : List Activity := [build, convert, duplicate, invent]

/-- The name of an activity. -/
def name : Activity → String
  | build => "Build"
  | convert => "Convert"
  | duplicate => "Duplicate"
  | invent => "Invent"

/-- The activity with a given name. -/
def ofName? : String → Option Activity
  | "Build" => some build
  | "Convert" => some convert
  | "Duplicate" => some duplicate
  | "Invent" => some invent
  | _ => none

def isConversion (a : Activity) : Bool := a == convert

/-- Only building uses material and time efficiency. -/
def usesEfficiency (a : Activity) : Bool := a == build

end Activity

/-- A quantity of one material. -/
structure Portion where
  material : Nat
  quantity : Nat
  deriving DecidableEq, Repr, Inhabited

/-- The key of a recipe: id and activity. -/
structure RecipeKey where
  id : Nat
  activity : Activity
  deriving DecidableEq, Repr, Inhabited

namespace RecipeKey

def lt (a b : RecipeKey) : Bool :=
  a.id < b.id || (a.id == b.id && a.activity.rank < b.activity.rank)

end RecipeKey

/-- A recipe: inputs and outputs of one run, in the order they are listed, and the base
duration of a run in seconds. -/
structure Recipe where
  id : Nat
  activity : Activity
  inputs : List Portion
  outputs : List Portion
  baseDuration : Nat
  deriving DecidableEq, Repr, Inhabited

namespace Recipe

def key (r : Recipe) : RecipeKey := ⟨r.id, r.activity⟩

def primaryOutput (r : Recipe) : Option Portion := r.outputs.head?

/-- Units of a material made per run: the first output of that material. -/
def outputPerRun (r : Recipe) (m : Nat) : Option Nat :=
  (r.outputs.find? (·.material == m)).map (·.quantity)

def produces (r : Recipe) (m : Nat) : Bool := r.outputs.any (·.material == m)

def inputsOf (r : Recipe) (m : Nat) : List Portion := r.inputs.filter (·.material == m)

/-- Units of a material used per run: all its inputs added up, `none` if it is not used.
The sum is a count and may overflow. -/
def inputQuantity (r : Recipe) (m : Nat) : Except Fault (Option Nat) :=
  match r.inputsOf m with
  | [] => .ok none
  | ps => (Count.sum? (ps.map (·.quantity))).map some

def inputMaterials (r : Recipe) : List Nat :=
  sortBy (· ≤ ·)
    ((r.inputs.map (·.material)).foldl (fun acc m => if acc.contains m then acc else acc ++ [m]) [])

end Recipe

/-- Recipes by key; a later recipe with the same key replaces the earlier one in place. -/
structure RecipeBook where
  recipes : List Recipe := []
  deriving Repr, Inhabited

namespace RecipeBook

def get? (b : RecipeBook) (k : RecipeKey) : Option Recipe := b.recipes.find? (·.key == k)

def contains (b : RecipeBook) (k : RecipeKey) : Bool := b.recipes.any (·.key == k)

def insert (b : RecipeBook) (r : Recipe) : RecipeBook :=
  if b.contains r.key then ⟨b.recipes.map fun x => if x.key == r.key then r else x⟩
  else ⟨b.recipes ++ [r]⟩

def insertAll (b : RecipeBook) (rs : List Recipe) : RecipeBook := rs.foldl insert b

def ofList (rs : List Recipe) : RecipeBook := insertAll {} rs

def size (b : RecipeBook) : Nat := b.recipes.length

def sortedKeys (b : RecipeBook) : List RecipeKey :=
  sortBy (fun x y => !(RecipeKey.lt y x)) (b.recipes.map (·.key))

end RecipeBook

end Fabrication
