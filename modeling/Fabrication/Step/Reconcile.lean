import Fabrication.Step
import Fabrication.Quantity
import Fabrication.Sort

/-!
# Reconciling conversion steps

After merging, a consumer's runs follow its merged quantity, so the quantity of a
conversion (reaction) step may no longer match what its consumers use. Each conversion
step is therefore set to its own target plus the demand of every other step that is
neither a copy nor bought, worked out from the consumer's current runs, efficiency and
bonus. Conversion steps are taken in order of depth and recipe id, so a chain of
conversions sees the corrected runs of the steps before it. A step with no target and no
demand is left alone.

The conversion steps must not depend on one another in a cycle. Let a conversion step
feed each conversion step whose recipe uses its product (when several make the same
product, the last of them is the one that feeds). Kahn's loop counts the feeders of each
step, queues the steps with none, and visits the queue in turn; a visit takes one from the
count of each step the visited one feeds, and queues those whose count reaches zero. When
some step is never visited, the steps whose count is still positive are reported by their
products in ascending order.
-/

namespace Fabrication

namespace Step

/-- Units of `product` that the steps other than the one at `producer` use, added up in
step order. -/
def demandFor (steps : List Step) (book : RecipeBook) (producer product : Nat) :
    Except Fault Nat :=
  steps.zipIdx.foldlM (fun acc (c, i) =>
    if i == producer || c.isCopy || c.purchased then pure acc
    else
      match book.get? c.key with
      | none => pure acc
      | some r => do
        match ← r.inputQuantity product with
        | none => pure acc
        | some base => Count.add? acc (← requiredQuantity base c.runs c.activity c.me c.matBonus))
    0

/-- The feeding relation among conversion steps, given by their positions in `conversions`:
`(p, c)` when `c`'s recipe uses the product of `p`. -/
def feeds (conversions : List Step) (book : RecipeBook) : List (Nat × Nat) :=
  let producerOf (m : Nat) : Option Nat :=
    (conversions.zipIdx.reverse.find? (·.1.product == m)).map (·.2)
  conversions.zipIdx.flatMap fun (c, j) =>
    match book.get? c.key with
    | none => []
    | some r => r.inputMaterials.filterMap fun m => (producerOf m).map (·, j)

/-- The state of Kahn's loop over positions: the count of each position's feeders not yet
visited, the positions waiting to be visited, and how many have been visited. -/
structure Kahn where
  inDegree : List Nat
  queue : List Nat
  visited : Nat
  deriving Repr, DecidableEq

def consumersOf (edges : List (Nat × Nat)) (p : Nat) : List Nat :=
  (edges.filter (·.1 == p)).map (·.2)

namespace Kahn

/-- The loop on `n` positions before its first visit: each position counts its feeders, and
those with none are queued in position order. -/
def start (edges : List (Nat × Nat)) (n : Nat) : Kahn :=
  let inDegree := (List.range n).map fun j => edges.countP (·.2 == j)
  ⟨inDegree, (List.range n).filter fun j => inDegree.getD j 0 == 0, 0⟩

/-- One feeder of `next` visited: its count drops, and at zero it joins the queue. -/
def release (st : Kahn) (next : Nat) : Kahn :=
  let d := st.inDegree.getD next 0 - 1
  { st with
    inDegree := st.inDegree.set next d
    queue := if d == 0 then st.queue ++ [next] else st.queue }

/-- Visit the queued positions in turn, for at most `fuel` visits. -/
def drain (edges : List (Nat × Nat)) : (fuel : Nat) → Kahn → Kahn
  | 0, st => st
  | fuel + 1, st =>
    match st.queue with
    | [] => st
    | node :: rest =>
      drain edges fuel ((consumersOf edges node).foldl release
        { st with queue := rest, visited := st.visited + 1 })

end Kahn

/-- Refuse conversion steps that depend on one another in a cycle. A position is queued at
most once, so as many visits as there are conversion steps drain the queue. -/
def checkCycles (steps : List Step) (book : RecipeBook) : Except PlanError Unit :=
  let conversions := steps.filter (·.activity == .convert)
  let n := conversions.length
  let edges := feeds conversions book
  let done := Kahn.drain edges n (Kahn.start edges n)
  if done.visited < n then
    let left := (List.range n).filter fun i => 0 < done.inDegree.getD i 0
    let products := left.filterMap fun i => (conversions[i]?).map (·.product)
    .error (.cycleDetected (sortBy (· ≤ ·) products))
  else .ok ()

def conversionOrder (steps : List Step) : List Nat :=
  let conv := (steps.zipIdx.filter (·.1.activity == .convert))
  (sortBy (fun a b => a.1.depth < b.1.depth ||
    (a.1.depth == b.1.depth && a.1.recipe ≤ b.1.recipe)) conv).map (·.2)

/-- Set the conversion step at a position to its target plus the demand on it. -/
def reconcileAt (book : RecipeBook) (steps : List Step) (i : Nat) : Except Fault (List Step) :=
  match steps[i]? with
  | none => pure steps
  | some s => do
    let demand ← demandFor steps book i s.product
    if demand == 0 && s.target == 0 then pure steps
    else
      let quantity ← Count.add? s.target demand
      pure (steps.set i { s with quantity, runs := runsFor quantity s.out })

def reconcile (steps : List Step) (book : RecipeBook) : Outcome (List Step) := do
  Outcome.ofPlan (checkCycles steps book)
  Outcome.ofFault ((conversionOrder steps).foldlM (reconcileAt book) steps)

end Step

end Fabrication
