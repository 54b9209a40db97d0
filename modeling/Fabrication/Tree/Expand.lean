import Fabrication.Tree
import Fabrication.Snapshot
import Fabrication.Quantity
import Fabrication.Step

/-!
# Expanding targets into trees

A target is expanded through its material's producer in the snapshot, and every input that
has a producer of its own is expanded in turn, for the amount that its parent needs.

* A node makes `quantity` units in `ceil(quantity / out)` runs, `out` being the units of the
  material per run (at least one). Its inputs are needed in the amounts of
  `requiredQuantity` for those runs, with the node's material efficiency and facility bonus.
* The root takes the target's efficiencies; every other node takes the configured child
  efficiencies (conversions have their own material efficiency).
* An excluded input is a leaf; an input already on the path from the root closes a cycle,
  reported as the path followed by that input; an input without producer is raw.
* A node deeper than the depth limit is refused. The expansion therefore never runs more
  than `maxDepth + 1` levels deep, which is the measure that bounds it.
-/

namespace Fabrication

namespace Node

/-- Expand `recipe` for `quantity` units of `material` at `depth`, with efficiencies `me` and
`te`, below the materials of `path`; `levels` is the number of levels still allowed, so that
`levels = 0` means `depth` lies past the limit. -/
def expandWith (snap : Snapshot) (config : EngineConfig) (excluded : List Nat) :
    (levels : Nat) → (recipe : Recipe) → (material quantity depth me te : Nat) →
    (path : List Nat) → Outcome Node
  | 0, _, _, _, _, _, _, _ => .error (.rejected (.depthExceeded config.maxDepth))
  | levels + 1, recipe, material, quantity, depth, me, te, path => do
    let path := path ++ [material]
    let out := Nat.max ((recipe.outputPerRun material).getD 1) 1
    let runs := runsFor quantity out
    let found := snap.bonusFor material recipe.activity.isConversion
    let bonus := found.getD Bonus.none
    let reqs ← recipe.inputs.mapM fun input => do
      let required ← Outcome.ofFault
        (requiredQuantity input.quantity runs recipe.activity me bonus.material)
      let source : Supply Node ←
        if excluded.contains input.material then pure .excluded
        else if path.contains input.material then
          throw (.rejected (.cycleDetected (path ++ [input.material])))
        else
          match snap.producerOf input.material with
          | none => pure .raw
          | some child =>
            let childMe := config.childMaterialEfficiency child.activity.isConversion
            .made <$> expandWith snap config excluded levels child input.material required
              (depth + 1) childMe config.childTimeEfficiency path
      pure (⟨input.material, input.quantity, required, source⟩ : Requirement Node)
    pure (.mk ⟨material, recipe.id, recipe.activity, quantity, runs, out, depth, me, te, bonus,
      found.isNone⟩ reqs)

/-- The tree of one target, refused when nothing produces the target's material. -/
def expand (snap : Snapshot) (config : EngineConfig) (excluded : List Nat) (t : Target) :
    Outcome Node :=
  match snap.producerOf t.material with
  | none => .error (.rejected (.noProducer t.material))
  | some recipe =>
    expandWith snap config excluded (config.maxDepth + 1) recipe t.material t.quantity 0 t.me t.te []

/-- The trees of all targets in order; the first target that fails decides the error. -/
def expandAll (snap : Snapshot) (config : EngineConfig) (excluded : List Nat)
    (targets : List Target) : Outcome (List Node) :=
  targets.mapM (expand snap config excluded)

end Node

end Fabrication
