import Fabrication.Demo.Transcript
import Fabrication.Service

/-!
# Demonstration: job matching and a profit report

A plan for ninety units of one product is created, matched against three delivered jobs,
and the month's sales are paired with those jobs into a profit report.
-/

namespace Fabrication

namespace Demo

def month : Int := 1761955200

/-- A job of `runs` runs started `hours` into the month in facility 10, delivered thirty
hours later. -/
def deliveredJob (id runs hours : Nat) : Job :=
  let started := month + 3600 * hours
  { id, recipe := 1000, product := 500, runs, status := .delivered, started,
    ended := some (started + 30 * 3600), facility := some 10, cost := Decimal.ofNat 25000 }

/-- One recipe, its input prices, three delivered jobs and three sales. -/
def reportWorld : World where
  recipes := [⟨1000, .build, [⟨34, 1000⟩, ⟨35, 200⟩], [⟨500, 10⟩], 3600⟩]
  prices := [(34, ⟨false, 55, 1⟩), (35, ⟨false, 121, 1⟩), (500, Decimal.ofNat 1200)]
  jobs := [deliveredJob 1 4 0, deliveredJob 2 4 12, deliveredJob 3 2 48]
  sales := [
    { id := 101, material := 500, quantity := 25, price := Decimal.ofNat 1250,
      sold := month + 3 * 86400 },
    { id := 102, material := 500, quantity := 40, price := Decimal.ofNat 1190,
      sold := month + 5 * 86400 },
    { id := 103, material := 500, quantity := 50, price := Decimal.ofNat 1215,
      sold := month + 9 * 86400 }]

def reportResolver : Resolver :=
  Resolver.insert {} 1 (Registry.ofList [
    ⟨10, "Azbel", [⟨.build, none, Decimal.one, Decimal.ofNat 20⟩]⟩])

/-- The lines of the matches and messages of a matching pass. -/
def outcomeLines (o : MatchOutcome) : Script (List String) := do
  let matched ← o.assignments.mapM fun m => do
    let step ← Api.identText m.step
    let job := m.job
    let runs := m.runs
    pure s!"  步驟 {step} <- 作業 {job} ({runs} 次)"
  pure (matched ++ o.messages.map fun message => s!"  * {message}")

/-- One allocation of the report. -/
def allocationLine (m : ProfitMatch) : String :=
  let job := m.job
  let sale := m.sale
  let quantity := alignRight 3 (toString m.quantity)
  let revenue := alignRight 10 m.revenue.render
  let material := alignRight 9 m.materialCost.render
  let share := alignRight 8 m.jobCostShare.render
  let tax := alignRight 7 m.tax.render
  let profit := alignRight 10 m.profit.render
  let source := m.costSource.name
  s!"  作業 {job} -> 銷售 {sale}: {quantity} 個 | 營收 {revenue} | 材料 {material} | 作業 {share} | 稅 {tax} | 利潤 {profit} ({source})"

/-- The allocations, leftovers and summaries of a report. -/
def reportLines (r : ProfitReport) : List String :=
  r.allocations.map allocationLine ++
  r.unmatchedJobs.map (fun u =>
    let job := u.job
    let left := u.left
    s!"  作業 {job} 尚有 {left} 個未售出") ++
  r.unmatchedSales.map (fun u =>
    let sale := u.sale
    let left := u.left
    s!"  銷售 {sale} 有 {left} 個沒有對應作業") ++
  r.summaries.flatMap fun s =>
    let material := s.material
    let units := s.units
    let revenue := s.revenue.render
    let profit := s.profit.render
    let margin := s.margin.render
    ["", s!"物料 {material}: {units} 個, 營收 {revenue}, 利潤 {profit}, 利潤率 {margin}%"]

/-- The profit report program. -/
def profitReport : Script Transcript := do
  let svc : Service := { config := { fallbackCostRatio := some ⟨false, 6, 1⟩ },
                         resolver := reportResolver, world := reportWorld }
  let (planId, supply) := svc.supply.take
  let svc := { svc with supply }
  let plan : Plan := { id := planId, owner := 1, name := "產品 ×90",
                       targets := [{ material := 500, quantity := 90, me := 10, te := 20 }] }
  let lines := ["=== 作業匹配與利潤報表示例 ===", ""]
  continueWith lines (Service.attempt (Service.createPlan plan []) svc) fun (_, svc) => do
    let lines := lines ++ ["作業匹配:"]
    continueWith lines (Service.attempt (Service.matchJobs { user := 1, since := month }) svc) fun (outcomes, svc) => do
      let matched ← outcomes.mapM outcomeLines
      let lines := lines ++ matched.flatten
      continueWith lines (Outcome.ofPlan (svc.store.loadPlan planId)) fun plan => do
        let lines := lines ++ (plan.steps.filter (·.product == 500)).map fun s =>
          let runs := s.runs
          let quantity := s.quantity
          s!"  匹配後產品步驟: {runs} 次 / {quantity} 個"
        let window : Window := ⟨month, month + 30 * 86400⟩
        let req : ProfitRequest := { user := 1, materials := [500], window,
                                     jobsSince := month - defaultLookback }
        continueWith lines (Service.attempt (Service.computeProfit req) svc) fun (report, _) =>
          pure { lines := lines ++ ["", "利潤分配:"] ++ reportLines report }

end Demo

end Fabrication
