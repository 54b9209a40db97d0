import Fabrication.Facility
import Fabrication.Ident
import Fabrication.Table

/-!
# Plan steps and plans

A plan is a list of steps. A step runs one recipe key for one product: it has a quantity
and the runs that make it, the units made per run, the part of the quantity that the user
asked for directly (its target), efficiencies, the facility and its bonus, the seconds per
run once known, and whether it is bought instead of made or left out of job matching.

A long step may be split into a group of steps that share a group identifier; each member
knows its index in the group and the runs of the whole group before the split. A copy
(duplicate) step makes the blueprint copies that its build step uses.
-/

namespace Fabrication

abbrev Planning := StateT IdSupply Outcome

namespace Planning

def mint : Planning Ident := modifyGet IdSupply.take

def ofOutcome {α : Type} (o : Outcome α) : Planning α := StateT.lift o

def ofFault {α : Type} (o : Except Fault α) : Planning α := ofOutcome (Outcome.ofFault o)

end Planning

/-- Membership of a split group. -/
structure SplitInfo where
  group : Ident
  index : Nat
  total : Nat
  deriving DecidableEq, Repr, Inhabited

/-- A step of a plan. -/
structure Step where
  id : Ident
  recipe : Nat
  activity : Activity := .build
  product : Nat := 0
  depth : Nat := 0
  quantity : Nat := 0
  runs : Nat := 0
  out : Nat := 1
  target : Nat := 0
  me : Nat := 0
  te : Nat := 0
  facility : Option Nat := none
  matBonus : Decimal := Decimal.zero
  timeBonus : Decimal := Decimal.zero
  bonusMissing : Bool := false
  duration : Option Nat := none
  split : Option SplitInfo := none
  purchased : Bool := false
  autoMatch : Bool := true
  deriving DecidableEq, Repr, Inhabited

namespace Step

def key (s : Step) : RecipeKey := ⟨s.recipe, s.activity⟩

def isCopy (s : Step) : Bool := s.activity == .duplicate

def isSplit (s : Step) : Bool := s.split.isSome

def group (s : Step) : Option Ident := s.split.map (·.group)

def bonus (s : Step) : Bonus := ⟨s.matBonus, s.timeBonus, s.facility⟩

/-- Take over a bonus: its facility and percentages, and the bonus is no longer missing. -/
def applyBonus (s : Step) (b : Bonus) : Step :=
  { s with facility := b.facility, matBonus := b.material, timeBonus := b.time,
           bonusMissing := false }

/-- Seconds for all runs, held at the largest count; unknown without a run duration. -/
def totalDuration (s : Step) : Option Nat := s.duration.map fun d => Count.satMul d s.runs

end Step

/-- A product the user wants, with the efficiencies of its blueprint. -/
structure Target where
  material : Nat
  quantity : Nat := 0
  me : Nat := 0
  te : Nat := 0
  deriving DecidableEq, Repr, Inhabited

/-- A production plan of a user. -/
structure Plan where
  id : Ident
  owner : Nat := 1
  name : String := "plan"
  created : Int := 0
  targets : List Target := []
  excluded : List Nat := []
  steps : List Step := []
  deriving DecidableEq, Repr, Inhabited

namespace Plan

def step? (p : Plan) (id : Ident) : Option Step := p.steps.find? (·.id == id)

def stepsFor (p : Plan) (material : Nat) : List Step :=
  p.steps.filter fun s => s.product == material && !s.isCopy

end Plan

end Fabrication
