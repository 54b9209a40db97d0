import Fabrication.Api.World
import Fabrication.Tree
import Fabrication.Calculation

/-!
# Shapes of steps, trees and calculations

* A step is written with all its members; `facility`, `duration` and `split` may be
  `null`, and a split is `{"group", "index", "total"}`. Its identifier is written before
  its group, so that a fresh identifier is labelled before the group it starts.
* In a request a step needs `id` and `recipe`; the other members have defaults (one unit
  per run, automatic matching on, all else zero or absent).
* A tree node is `{"material", "recipe", "activity", "quantity", "runs", "out", "depth",
  "me", "te", "bonus", "bonus_missing", "reqs"}`, and a requirement
  `{"material", "base", "quantity", "source"}` whose source, required, is `"Raw"`,
  `"Excluded"` or the node that makes it.
-/

namespace Fabrication

namespace Api

/-- A split group membership. -/
def asSplit (labels : Labels) (j : Json) : Decode SplitInfo := do
  let group ← field j "group" (asIdent labels)
  let index ← getD j "index" asU32 0
  let total ← getD j "total" asU64 0
  pure { group, index, total }

/-- A step. -/
def asStep (labels : Labels) (j : Json) : Decode Step := do
  let id ← field j "id" (asIdent labels)
  let recipe ← field j "recipe" asU32
  let activity ← activityD j "activity"
  let product ← getD j "product" asU32 0
  let depth ← getD j "depth" asU32 0
  let quantity ← getD j "quantity" asU64 0
  let runs ← getD j "runs" asU64 0
  let out ← getD j "out" asU64 1
  let target ← getD j "target" asU64 0
  let me ← getD j "me" asU8 0
  let te ← getD j "te" asU8 0
  let facility ← getOpt j "facility" asU64
  let matBonus ← getD j "mat_bonus" asDecimal Decimal.zero
  let timeBonus ← getD j "time_bonus" asDecimal Decimal.zero
  let bonusMissing ← flagD j "bonus_missing" false
  let duration ← getOpt j "duration" asU64
  let split ← getOpt j "split" (asSplit labels)
  let purchased ← flagD j "purchased" false
  let autoMatch ← flagD j "auto_match" true
  pure { id, recipe, activity, product, depth, quantity, runs, out, target, me, te, facility,
         matBonus, timeBonus, bonusMissing, duration, split, purchased, autoMatch }

def stepsOf (j : Json) : Answer (List Step) := do
  let labels ← currentLabels
  Answer.ofDecode (getD j "steps" (asList (asStep labels)) [])

def identsOf (j : Json) (key : String) : Answer (List Ident) := do
  let labels ← currentLabels
  Answer.ofDecode (getD j key (asList (asIdent labels)) [])

/-- A step as written in answers. -/
def stepJson (s : Step) : Encode Json := do
  let id ← identJson s.id
  let split ← match s.split with
    | none => pure Json.null
    | some i => do
      let g ← identJson i.group
      pure (.obj [("group", g), ("index", .nat i.index), ("total", .nat i.total)])
  pure (.obj [("id", id), ("recipe", .nat s.recipe), ("activity", .str s.activity.name),
    ("product", .nat s.product), ("depth", .nat s.depth), ("quantity", .nat s.quantity),
    ("runs", .nat s.runs), ("out", .nat s.out), ("target", .nat s.target), ("me", .nat s.me),
    ("te", .nat s.te), ("facility", .opt Json.nat s.facility),
    ("mat_bonus", decimalJson s.matBonus), ("time_bonus", decimalJson s.timeBonus),
    ("bonus_missing", .bool s.bonusMissing), ("duration", .opt Json.nat s.duration),
    ("split", split), ("purchased", .bool s.purchased), ("auto_match", .bool s.autoMatch)])

def stepsJson (steps : List Step) : Encode Json := do
  pure (.arr (← steps.mapM stepJson))

/-- A node, reading at most `fuel` levels of nesting. -/
def asNodeWith : Nat → Json → Decode Node
  | 0, _ => throw "tree nested too deeply"
  | fuel + 1, j => do
    let material ← field j "material" asU32
    let recipe ← field j "recipe" asU32
    let activity ← activityD j "activity"
    let quantity ← getD j "quantity" asU64 0
    let runs ← getD j "runs" asU64 0
    let out ← getD j "out" asU64 1
    let depth ← getD j "depth" asU32 0
    let me ← getD j "me" asU8 0
    let te ← getD j "te" asU8 0
    let bonus ← getD j "bonus" asBonus Bonus.none
    let bonusMissing ← flagD j "bonus_missing" false
    let reqs ← getD j "reqs" (asList fun r => do
      let m ← field r "material" asU32
      let base ← getD r "base" asU64 0
      let q ← getD r "quantity" asU64 0
      let source : Supply Node ← match ← required r "source" with
        | .str "Raw" => pure .raw
        | .str "Excluded" => pure .excluded
        | .obj members => .made <$> asNodeWith fuel (.obj members)
        | other =>
          let t := other.render
          throw s!"bad requirement source: {t}"
      pure (⟨m, base, q, source⟩ : Requirement Node)) []
    let head : Expansion := { material, recipe, activity, quantity, runs, out, depth, me, te,
                              bonus, bonusMissing }
    pure (.mk head reqs)

def asNode (j : Json) : Decode Node := asNodeWith j.size j

mutual

/-- A tree as written in answers. -/
def nodeJson : Node → Json
  | .mk h reqs => .obj [("material", .nat h.material), ("recipe", .nat h.recipe),
      ("activity", .str h.activity.name), ("quantity", .nat h.quantity), ("runs", .nat h.runs),
      ("out", .nat h.out), ("depth", .nat h.depth), ("me", .nat h.me), ("te", .nat h.te),
      ("bonus", bonusJson h.bonus), ("bonus_missing", .bool h.bonusMissing),
      ("reqs", .arr (reqsJson reqs))]

/-- Requirements as written in answers. -/
def reqsJson : List (Requirement Node) → List Json
  | [] => []
  | ⟨m, base, q, source⟩ :: rest =>
    let s := match source with
      | .raw => Json.str "Raw"
      | .excluded => Json.str "Excluded"
      | .made c => nodeJson c
    .obj [("material", .nat m), ("base", .nat base), ("quantity", .nat q), ("source", s)] ::
      reqsJson rest

end

def amountsJson (xs : List (Nat × Nat)) : Json :=
  .arr (xs.map fun (m, q) => .arr [.nat m, .nat q])

def warningJson (w : Warning) : Json :=
  .obj [("material", .nat w.material), ("message", .str w.message),
    ("severity", .str w.severity.name)]

/-- The figures of a tree: node count, depth, direct children, leaves, and which of the
root's requirements are leaves. -/
def treeStatsJson (n : Node) : Except Fault Json := do
  let leaves ← n.leaves
  pure (.obj [("nodes", .nat n.nodeCount), ("max_depth", .nat n.maxDepth),
    ("children", .nat n.children.length), ("leaves", amountsJson leaves),
    ("leaf_reqs", .arr (n.reqs.map fun r => .bool r.isLeaf))])

end Api

end Fabrication
