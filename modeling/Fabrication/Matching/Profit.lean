import Fabrication.Catalog
import Fabrication.Config
import Fabrication.Snapshot
import Fabrication.Sort

/-!
# Profit of sold products

For each product asked about, in ascending order, the delivered jobs that made it are paired
with its sales first in, first out.

* The jobs are those of the product's producing recipes, run by the given characters from
  `jobsSince` on, delivered within the window; the sales are those made within the window.
  Jobs are ordered by delivery, a job without a delivery time first, then id; sales by time
  of sale, then id.
* A job yields `runs * out` units (held at the largest count), `out` being what its recipe
  makes of the product per run (one without recipe). Its unit cost is the priced inputs of
  its recipe for its runs divided by its units; without recipe or with an input unpriced,
  the product's price times the fallback ratio; else zero. The cost is worked out for every
  job before jobs without units are dropped.
* Pairing walks both lists and each time allocates as many units as both sides still have.
  An allocation earns `units * price` and bears `units * unit cost`, the job's cost in
  proportion of its units, and the sales tax on the revenue; each amount is rounded to
  cents, a half away from zero.
* What a product's allocations add up to is its summary; the margin is the profit as a
  percentage of the revenue when there is revenue.
-/

namespace Fabrication

/-- A time window from `start` up to, not including, `finish`. -/
structure Window where
  start : Int
  finish : Int
  deriving DecidableEq, Repr, Inhabited

def Window.contains (w : Window) (t : Int) : Bool := decide (w.start ≤ t) && decide (t < w.finish)

/-- Where a unit cost came from. -/
inductive CostSource where
  | inputs
  | fallback
  | unavailable
  deriving DecidableEq, Repr, Inhabited

def CostSource.name : CostSource → String
  | .inputs => "Inputs"
  | .fallback => "Fallback"
  | .unavailable => "Unavailable"

/-- Units of a job allocated to a sale, with the money they make and cost. -/
structure ProfitMatch where
  job : Nat
  sale : Nat
  material : Nat
  quantity : Nat
  revenue : Decimal
  materialCost : Decimal
  jobCostShare : Decimal
  tax : Decimal
  profit : Decimal
  sold : Int
  costSource : CostSource
  deriving DecidableEq, Repr, Inhabited

/-- Units of a job left without a sale. -/
structure UnmatchedJob where
  job : Nat
  material : Nat
  left : Nat
  deriving DecidableEq, Repr, Inhabited

/-- Units of a sale left without a job. -/
structure UnmatchedSale where
  sale : Nat
  material : Nat
  left : Nat
  deriving DecidableEq, Repr, Inhabited

/-- What the allocations of one product add up to. -/
structure ProfitSummary where
  material : Nat
  units : Nat := 0
  revenue : Decimal := Decimal.zero
  materialCost : Decimal := Decimal.zero
  jobCost : Decimal := Decimal.zero
  tax : Decimal := Decimal.zero
  profit : Decimal := Decimal.zero
  margin : Decimal := Decimal.zero
  estimatedLines : Nat := 0
  deriving DecidableEq, Repr, Inhabited

/-- The allocations and leftovers of a window. -/
structure ProfitReport where
  window : Window
  allocations : List ProfitMatch := []
  unmatchedJobs : List UnmatchedJob := []
  unmatchedSales : List UnmatchedSale := []
  summaries : List ProfitSummary := []
  deriving DecidableEq, Repr, Inhabited

namespace ProfitReport

def totalProfit (r : ProfitReport) : Except Fault Decimal :=
  r.summaries.foldlM (fun acc s => Decimal.add acc s.profit) Decimal.zero

def summary? (r : ProfitReport) (material : Nat) : Option ProfitSummary :=
  r.summaries.find? (·.material == material)

end ProfitReport

/-- What profit is asked for: whose, which products, which characters (all when empty), the
window, and from when jobs are looked at. -/
structure ProfitRequest where
  user : Nat := 1
  materials : List Nat := []
  characters : List Nat := []
  window : Window
  jobsSince : Int
  deriving DecidableEq, Repr, Inhabited

/-- Seconds that jobs are looked back before a window by default: thirty days. -/
def defaultLookback : Int := 30 * 86400

/-- The default start of the jobs for a window: thirty days before it. Every request works
it out, also one that names its own start, and it is a fault when it leaves the calendar. -/
def ProfitRequest.lookbackStart (w : Window) : Except Fault Int :=
  Calendar.before w.start defaultLookback

/-- Money is kept to cents, a half rounded away from zero. -/
def money (d : Decimal) : Decimal := d.roundAway 2

/-- The units of a job still to allocate, and the unit cost. -/
structure Lot where
  job : Job
  units : Nat
  left : Nat
  unitCost : Decimal
  costSource : CostSource
  deriving Repr, Inhabited

/-- The cost of a recipe's inputs for a job's runs; none when an input has no price. -/
def inputsCost (prices : Nat → Option Decimal) (runs : Nat) :
    List Portion → Decimal → Except Fault (Option Decimal)
  | [], sum => pure (some sum)
  | p :: ps, sum =>
    match prices p.material with
    | none => pure none
    | some price => do
      let x ← Decimal.mul (Decimal.ofNat p.quantity) (Decimal.ofNat runs)
      let x ← Decimal.mul x price
      inputsCost prices runs ps (← Decimal.add sum x)

/-- The unit cost of a job and where it came from. -/
def unitCost (config : EngineConfig) (prices : Nat → Option Decimal) (job : Job)
    (recipe : Option Recipe) (units : Nat) : Except Fault (Decimal × CostSource) := do
  let total ← match recipe with
    | some r => inputsCost prices job.runs r.inputs Decimal.zero
    | none => pure none
  match total with
  | some t => pure (← Decimal.div t (Decimal.ofNat units), .inputs)
  | none =>
    match prices job.product, config.fallbackCostRatio with
    | some price, some ratio => pure (← Decimal.mul price ratio, .fallback)
    | _, _ => pure (Decimal.zero, .unavailable)

/-- The lot of a job. -/
def lotOf (config : EngineConfig) (prices : Nat → Option Decimal) (book : RecipeBook)
    (job : Job) : Except Fault Lot := do
  let recipe := book.get? ⟨job.recipe, job.activity⟩
  let out := ((recipe.bind (·.outputPerRun job.product))).getD 1
  let units := Count.satMul job.runs out
  let (cost, source) ← unitCost config prices job recipe units
  pure ⟨job, units, units, cost, source⟩

/-- Allocate units of a lot to a sale. -/
def allocate (config : EngineConfig) (lot : Lot) (sale : Sale) (quantity : Nat) :
    Except Fault ProfitMatch := do
  let units := Decimal.ofNat quantity
  let revenue := money (← Decimal.mul units sale.price)
  let materialCost := money (← Decimal.mul units lot.unitCost)
  let jobCostShare := money (← Decimal.div (← Decimal.mul lot.job.cost units) (Decimal.ofNat lot.units))
  let tax := money (← Decimal.mul revenue config.salesTaxRate)
  let profit ← Decimal.sub (← Decimal.sub (← Decimal.sub revenue materialCost) jobCostShare) tax
  pure ⟨lot.job.id, sale.id, sale.material, quantity, revenue, materialCost, jobCostShare, tax,
    profit, sale.sold, lot.costSource⟩

/-- Pair lots with sales first in, first out: the allocations, then the lots and sales
with units left. -/
def pairUp (config : EngineConfig) :
    List Lot → List (Sale × Nat) → Except Fault (List ProfitMatch × List Lot × List (Sale × Nat))
  | [], sales => pure ([], [], sales)
  | lots, [] => pure ([], lots, [])
  | lot :: lots, (sale, left) :: sales => do
    let q := Nat.min lot.left left
    let here ← if q > 0 then do pure [← allocate config lot sale q] else pure []
    let (ms, ls, ss) ←
      if lot.left ≤ left then
        if left - q == 0 then pairUp config lots sales
        else pairUp config lots ((sale, left - q) :: sales)
      else pairUp config ({ lot with left := lot.left - q } :: lots) sales
    pure (here ++ ms, ls, ss)
termination_by lots sales => lots.length + sales.length

/-- The summary of a product's allocations. -/
def summarize (material : Nat) (allocations : List ProfitMatch) : Except Fault ProfitSummary := do
  let s ← (allocations.filter (·.material == material)).foldlM (fun (s : ProfitSummary) m => do
    pure { s with units := ← Count.add? s.units m.quantity,
                  revenue := ← Decimal.add s.revenue m.revenue,
                  materialCost := ← Decimal.add s.materialCost m.materialCost,
                  jobCost := ← Decimal.add s.jobCost m.jobCostShare,
                  tax := ← Decimal.add s.tax m.tax,
                  profit := ← Decimal.add s.profit m.profit,
                  estimatedLines := if m.costSource == .inputs then s.estimatedLines
                    else s.estimatedLines + 1 }) { material }
  if Decimal.zero < s.revenue then
    let ratio ← Decimal.div s.profit s.revenue
    pure { s with margin := money (← Decimal.mul ratio Decimal.hundred) }
  else pure s

/-- Whether a job may come before another: by delivery time, a job without one first, then by
id. -/
def Job.deliveredBefore (a b : Job) : Bool :=
  match a.ended, b.ended with
  | none, none => a.id ≤ b.id
  | none, some _ => true
  | some _, none => false
  | some x, some y => x < y || (x == y && a.id ≤ b.id)

/-- Whether a sale may come before another: by time of sale, then by id. -/
def Sale.soldBefore (a b : Sale) : Bool := a.sold < b.sold || (a.sold == b.sold && a.id ≤ b.id)

/-- Pair one product's jobs and sales and add the result to a report. -/
def matchMaterial (config : EngineConfig) (prices : Nat → Option Decimal) (book : RecipeBook)
    (material : Nat) (jobs : List Job) (sales : List Sale) (report : ProfitReport) :
    Except Fault ProfitReport := do
  let jobs := sortBy Job.deliveredBefore jobs
  let sales := sortBy Sale.soldBefore sales
  let lots ← jobs.mapM (lotOf config prices book)
  let lots := lots.filter (·.units > 0)
  let (allocations, lotsLeft, salesLeft) ← pairUp config lots (sales.map fun s => (s, s.quantity))
  let summary ← summarize material allocations
  pure { report with
    allocations := report.allocations ++ allocations
    unmatchedJobs := report.unmatchedJobs ++ (lotsLeft.filter (·.left > 0)).map
      fun l => ⟨l.job.id, material, l.left⟩
    unmatchedSales := report.unmatchedSales ++ (salesLeft.filter (·.2 > 0)).map
      fun (s, left) => ⟨s.id, material, left⟩
    summaries := report.summaries ++ [summary] }

/-- The profit report of a request. -/
def computeProfit (config : EngineConfig) (req : ProfitRequest) (world : World) :
    Except Fault ProfitReport := do
  let materials := ascendingSet req.materials
  let report : ProfitReport := { window := req.window }
  if materials.isEmpty then return report
  let producers := ({ recipes := world.recipes } : Catalog).findProducers materials producingKinds
  let book := RecipeBook.ofList (producers.flatMap (·.2))
  materials.foldlM (fun report m => do
    let recipeIds := ascendingSet (((producers.find? (·.1 == m)).map (·.2)).getD [] |>.map (·.id))
    let delivered := recipeIds.flatMap fun rid =>
      (world.jobsFor rid req.characters req.jobsSince).filter fun j =>
        j.product == m && j.isDelivered && (j.ended.map req.window.contains).getD false
    let sold := (world.salesOf m req.characters req.window.start).filter
      fun s => req.window.contains s.sold
    matchMaterial config world.priceOf book m delivered sold report) report

end Fabrication
