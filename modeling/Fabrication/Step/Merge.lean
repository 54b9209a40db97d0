import Fabrication.Tree
import Fabrication.Snapshot
import Fabrication.Step
import Fabrication.Quantity
import Fabrication.Sort

/-!
# Merging trees into steps

The trees of a plan are flattened into one step per recipe key.

* Nodes are taken tree by tree, each tree in preorder. The first node of a key makes its
  step; a later one adds its quantity, the runs are worked out again from the summed
  quantity (runs are never added), and the step keeps the greatest depth seen.
* Efficiencies and bonus come from the shallowest node of the key; between nodes at the
  same depth, from the one with the higher material efficiency.
* A root adds its quantity to the target of its key's step.
* When copy steps are planned, each build step whose recipe has a duplicate recipe gets a
  copy step at the same depth, with as many runs (and units) as the build step has runs.
* The steps are ordered by depth, recipe id and activity.

Quantities are counts, so adding them may overflow.
-/

namespace Fabrication

/-- A step being merged, with the depth of the node it took its efficiencies from. -/
structure Merging where
  step : Step
  shallowest : Nat
  deriving Repr, Inhabited

namespace Step

/-- The step of one expansion. -/
def ofExpansion (id : Ident) (e : Expansion) : Step :=
  { id, recipe := e.recipe, activity := e.activity, product := e.material, depth := e.depth,
    quantity := e.quantity, runs := e.runs, out := e.out, me := e.me, te := e.te,
    facility := e.bonus.facility, matBonus := e.bonus.material, timeBonus := e.bonus.time,
    bonusMissing := e.bonusMissing }

/-- Merge a further expansion of its key into a step. -/
def absorb (m : Merging) (e : Expansion) : Except Fault Merging := do
  let quantity ← Count.add? m.step.quantity e.quantity
  let s := { m.step with quantity, runs := runsFor quantity m.step.out,
                         depth := Nat.max m.step.depth e.depth }
  if e.depth < m.shallowest || (e.depth == m.shallowest && e.me > s.me) then
    pure ⟨{ s.applyBonus e.bonus with me := e.me, te := e.te, bonusMissing := e.bonusMissing },
      e.depth⟩
  else pure ⟨s, m.shallowest⟩

/-- Merge one node into the steps made so far. -/
def mergeNode (acc : List Merging) (e : Expansion) : Planning (List Merging) := do
  let k : RecipeKey := ⟨e.recipe, e.activity⟩
  if acc.any (·.step.key == k) then
    acc.mapM fun m => if m.step.key == k then Planning.ofFault (absorb m e) else pure m
  else
    let id ← Planning.mint
    pure (acc ++ [⟨ofExpansion id e, e.depth⟩])

/-- Merge a tree, and add the root's quantity to the target of the root's step. -/
def mergeTree (acc : List Merging) (root : Node) : Planning (List Merging) := do
  let acc ← root.nodes.foldlM (fun acc n => mergeNode acc n.head) acc
  let k : RecipeKey := ⟨root.head.recipe, root.head.activity⟩
  acc.mapM fun m =>
    if m.step.key == k then do
      let target ← Planning.ofFault (Count.add? m.step.target root.head.quantity)
      pure { m with step := { m.step with target } }
    else pure m

def copyOf (id : Ident) (s : Step) : Step :=
  { id, recipe := s.recipe, activity := .duplicate, product := s.product, depth := s.depth,
    quantity := s.runs, runs := s.runs, out := 1 }

/-- Steps come in order of depth, recipe id and activity. -/
def before (a b : Step) : Bool :=
  a.depth < b.depth || (a.depth == b.depth &&
    (a.recipe < b.recipe || (a.recipe == b.recipe && a.activity.rank ≤ b.activity.rank)))

/-- The steps of a forest. -/
def ofForest (forest : List Node) (snap : Snapshot) (config : EngineConfig) :
    Planning (List Step) := do
  let merged ← forest.foldlM mergeTree []
  let steps := merged.map (·.step)
  let copies ← if config.includeCopySteps then
      (steps.filter fun s => s.activity == .build && (snap.duplicateOf s.recipe).isSome).mapM
        fun s => do pure (copyOf (← Planning.mint) s)
    else pure []
  pure (sortBy before (steps ++ copies))

end Step

end Fabrication
