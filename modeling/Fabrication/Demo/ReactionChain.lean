import Fabrication.Demo.Transcript
import Fabrication.Service

/-!
# Demonstration: a reaction chain

Two products share one reaction intermediate. The plan for twenty ships is expanded,
merged, its reaction demand reconciled and its long jobs split; then the material
efficiency of the component step is set to zero and the plan is recalculated.
-/

namespace Fabrication

namespace Demo

/-- Ships (500), components (700) and the composite (600) made by a reaction; one operator
trained in industry. -/
def chainWorld : World where
  recipes := [
    ⟨1000, .build, [⟨34, 25000⟩, ⟨600, 40⟩, ⟨700, 12⟩], [⟨500, 1⟩], 36000⟩,
    ⟨1000, .duplicate, [], [], 18000⟩,
    ⟨1100, .build, [⟨35, 400⟩, ⟨600, 20⟩], [⟨700, 10⟩], 9000⟩,
    ⟨2000, .convert, [⟨16634, 100⟩, ⟨16635, 100⟩], [⟨600, 200⟩], 10800⟩]
  skills := [(1, ⟨[(3380, 5)]⟩)]

def chainResolver : Resolver :=
  Resolver.insert {} 1 (Registry.ofList [
    ⟨10, "Raitaru", [⟨.build, none, Decimal.one, Decimal.ofNat 15⟩]⟩,
    ⟨20, "Tatara", [⟨.convert, none, Decimal.zero, Decimal.ofNat 25⟩]⟩])

/-- A step as one line of the listing. -/
def chainStepLine (s : Step) : String :=
  let split := match s.split with
    | some i =>
      let n := i.index + 1
      let total := i.total
      s!" [拆分 {n}/{total}]"
    | none => ""
  let depth := s.depth
  let recipe := alignRight 5 (toString s.recipe)
  let activity := alignLeft 9 s.activity.name
  let product := alignRight 5 (toString s.product)
  let quantity := alignRight 6 (toString s.quantity)
  let runs := alignRight 4 (toString s.runs)
  let secs := alignRight 6 (toString (s.duration.getD 0))
  s!"  深度 {depth} | 配方 {recipe} {activity} | 物料 {product} | 數量 {quantity} | 次數 {runs} | 每次 {secs}s{split}"

/-- The raw materials and warnings of a calculation. -/
def chainSummary (c : Calculation) : List String :=
  c.raw.map (fun (m, q) =>
    let material := alignRight 5 (toString m)
    s!"  - 物料 {material}: {q}") ++
  c.warnings.map fun w =>
    let severity := w.severity.name
    let material := w.material
    let message := w.message
    s!"  ! {severity} 物料 {material}: {message}"

/-- The reaction chain program. -/
def reactionChain : Script Transcript := do
  let svc : Service := { config := { splitStrategy := .fill }, resolver := chainResolver,
                         world := chainWorld }
  let (planId, supply) := svc.supply.take
  let svc := { svc with supply }
  let plan : Plan := { id := planId, owner := 1, name := "巡洋艦 ×20",
                       targets := [{ material := 500, quantity := 20, me := 10, te := 20 }] }
  let lines := ["=== 反應鏈計劃示例 ===", ""]
  continueWith lines (Service.attempt (Service.createPlan plan [1]) svc) fun (result, svc) => do
    let lines := lines ++ ["計劃步驟:"] ++ result.steps.map chainStepLine ++
      ["", "原料清單:"] ++ chainSummary result
    match result.steps.find? (·.product == 700) with
    | none => pure { lines }
    | some component =>
      let lines := lines ++ ["", "將組件步驟的材料效率改為 0 後重算:"]
      continueWith lines (Service.attempt (Service.updateStep planId component.id { me := some 0 } [1]) svc)
        fun (update, _) => do
          let changed := update.changed.length
          pure { lines := lines ++ update.steps.map chainStepLine ++ [s!"  變更步驟: {changed}"] }

end Demo

end Fabrication
