import Fabrication.Recipe
import Fabrication.Skill
import Fabrication.Table

/-!
# The world outside the planner

What the planner reads but does not own: the recipes of the catalogue, the skill levels of
each character, market prices, the industry jobs that were actually run and the sales of
their products. Times are Unix seconds within the calendar's range (`Calendar.first` to
`Calendar.last`).

Skill levels and prices are tables in which a later entry for the same key replaces an
earlier one. Jobs and sales keep the order in which they were recorded; a query for them
keeps that order too. A query restricted to a list of characters accepts every character
when the list is empty.
-/

namespace Fabrication

namespace Calendar

/-- The first second the calendar names: the start of the second day of the year -262143. -/
def first : Int := -8334601228800

/-- The last second the calendar names: the end of the year 262142. -/
def last : Int := 8210266876799

def contains (t : Int) : Bool := first ≤ t && t ≤ last

/-- A time moved back by `d` seconds; a fault when it leaves the calendar. -/
def before (t d : Int) : Except Fault Int :=
  if contains (t - d) then .ok (t - d) else .error .timeOverflow

end Calendar

/-- The state of an industry job. -/
inductive JobStatus where
  | active
  | paused
  | ready
  | delivered
  | cancelled
  | reverted
  deriving DecidableEq, Repr, Inhabited

namespace JobStatus

/-- The name of a status. -/
def name : JobStatus → String
  | active => "Active"
  | paused => "Paused"
  | ready => "Ready"
  | delivered => "Delivered"
  | cancelled => "Cancelled"
  | reverted => "Reverted"

/-- The status with a name. -/
def ofName? : String → Option JobStatus
  | "Active" => some active
  | "Paused" => some paused
  | "Ready" => some ready
  | "Delivered" => some delivered
  | "Cancelled" => some cancelled
  | "Reverted" => some reverted
  | _ => none

end JobStatus

/-- An industry job as it was observed: its recipe, runs, when it started and ended, where
it ran, what it cost and who ran it. -/
structure Job where
  id : Nat
  recipe : Nat
  activity : Activity := .build
  product : Nat := 0
  runs : Nat := 0
  status : JobStatus := .active
  started : Int := 0
  ended : Option Int := none
  facility : Option Nat := none
  cost : Decimal := Decimal.zero
  character : Nat := 0
  deriving DecidableEq, Repr, Inhabited

namespace Job

/-- Cancelled and reverted jobs are never matched to a plan. -/
def isMatchable (j : Job) : Bool := j.status != .cancelled && j.status != .reverted

def isDelivered (j : Job) : Bool := j.status == .delivered

end Job

/-- A sale of some units of a material at a unit price. -/
structure Sale where
  id : Nat
  material : Nat
  quantity : Nat := 0
  price : Decimal := Decimal.zero
  sold : Int := 0
  character : Nat := 0
  deriving DecidableEq, Repr, Inhabited

/-- A character filter: an empty list lets every character through. -/
def acceptsCharacter (characters : List Nat) (c : Nat) : Bool :=
  characters.isEmpty || characters.contains c

/-- Everything the planner reads from outside. -/
structure World where
  recipes : List Recipe := []
  skills : List (Nat × SkillLevels) := []
  prices : List (Nat × Decimal) := []
  jobs : List Job := []
  sales : List Sale := []
  deriving Repr, Inhabited

namespace World

/-- The skill levels of a character; none recorded means all skills at level zero. -/
def levelsOf (w : World) (character : Nat) : SkillLevels :=
  (lastValue? w.skills character).getD {}

def priceOf (w : World) (material : Nat) : Option Decimal := lastValue? w.prices material

def pricesOf (w : World) (materials : List Nat) : List (Nat × Option Decimal) :=
  (ascendingSet materials).map fun m => (m, w.priceOf m)

/-- Jobs of a recipe run by the given characters that started at `since` or later. -/
def jobsFor (w : World) (recipe : Nat) (characters : List Nat) (since : Int) : List Job :=
  w.jobs.filter fun j => j.recipe == recipe && acceptsCharacter characters j.character &&
    decide (since ≤ j.started)

def salesOf (w : World) (material : Nat) (characters : List Nat) (since : Int) : List Sale :=
  w.sales.filter fun s => s.material == material && acceptsCharacter characters s.character &&
    decide (since ≤ s.sold)

def addJob (w : World) (j : Job) : World := { w with jobs := w.jobs ++ [j] }

def addSale (w : World) (s : Sale) : World := { w with sales := w.sales ++ [s] }

def setPrice (w : World) (material : Nat) (price : Decimal) : World :=
  { w with prices := w.prices ++ [(material, price)] }

end World

end Fabrication
