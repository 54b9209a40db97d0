import Fabrication.Step
import Fabrication.Quantity
import Fabrication.Table
import Fabrication.Sort

/-!
# Recalculating a plan's steps

After an edit, the demand of a stored plan is passed down again from the shallowest steps
to the deepest.

* A logical step is a step that is not a copy, or a whole split group with its members in
  split order. Logical steps are taken in order of depth (a group's greatest), recipe id and
  activity of their first member. The owner of a material is the first logical step that
  makes it.
* A logical step that is not pinned and has a target or received demand gets the quantity
  `target + demand` and the runs for it; a group shares the runs in proportion to its
  members' previous runs, the last member taking the rest.
* Unless it is bought, a logical step then asks every owner of one of its recipe's input
  materials (other than itself) for the input it needs for its total runs.
* Last, each group records the sum of its members' runs, and each copy step takes the runs
  of the build steps of its recipe.

The steps whose runs or quantity changed are reported, ordered as identifiers are. All
sums are counts and may overflow.
-/

namespace Fabrication

/-- A set of step identifiers, kept sorted and free of repeats. -/
structure DirtySet where
  ids : List Ident := []
  deriving DecidableEq, Repr, Inhabited

namespace DirtySet

def mark (d : DirtySet) (id : Ident) : DirtySet := ⟨Ident.insertSorted id d.ids⟩

def isDirty (d : DirtySet) (id : Ident) : Bool := d.ids.contains id

def size (d : DirtySet) : Nat := d.ids.length

def isEmpty (d : DirtySet) : Bool := d.ids.isEmpty

end DirtySet

/-- One unit of recalculation: the positions of a step or of a split group's members, in
split order, and the greatest depth among them. -/
structure Logical where
  members : List Nat
  depth : Nat
  deriving DecidableEq, Repr, Inhabited

/-- The result of a recalculation: the steps and those that changed. -/
structure Recalculation where
  steps : List Step
  changed : List Ident
  deriving DecidableEq, Repr, Inhabited

def Recalculation.isStable (r : Recalculation) : Bool := r.changed.isEmpty

namespace Step

def stepAt (steps : List Step) (i : Nat) : Step := steps.getD i default

end Step

namespace Logical

/-- The first member of a logical step, whose recipe, product and output stand for it. -/
def head (steps : List Step) (l : Logical) : Step := Step.stepAt steps (l.members.headD 0)

/-- Whether logical step `a` may be recalculated before `b`: by depth, then recipe id, then
activity of their first members. -/
def before (steps : List Step) (a b : Logical) : Bool :=
  a.depth < b.depth || (a.depth == b.depth &&
    ((a.head steps).recipe < (b.head steps).recipe || ((a.head steps).recipe == (b.head steps).recipe &&
      (a.head steps).activity.rank ≤ (b.head steps).activity.rank)))

end Logical

namespace Step

/-- Place the step at a position, not a copy: into the logical step of its group when the group
has one, else into a logical step of its own. -/
def placeStep (acc : List Logical × List (Ident × Nat)) (entry : Step × Nat) :
    List Logical × List (Ident × Nat) :=
  let (logical, groups) := acc
  let (s, i) := entry
  match s.group with
  | some g =>
    match groups.find? (·.1 == g) with
    | some (_, slot) =>
      (logical.modify slot fun l => ⟨l.members ++ [i], Nat.max l.depth s.depth⟩, groups)
    | none => (logical ++ [⟨[i], s.depth⟩], groups ++ [(g, logical.length)])
  | none => (logical ++ [⟨[i], s.depth⟩], groups)

/-- The logical steps of a list of steps, in recalculation order. -/
def logicalSteps (steps : List Step) : List Logical :=
  let logical := ((steps.zipIdx.filter (!·.1.isCopy)).foldl placeStep ([], [])).1
  let indexOf (m : Nat) : Nat := ((stepAt steps m).split.map (·.index)).getD 0
  let logical := logical.map fun l => { l with members := sortBy (fun a b => indexOf a ≤ indexOf b) l.members }
  sortBy (Logical.before steps) logical

/-- Hand one member of a logical step its part of the runs and quantity, given the members'
previous runs add up to `basis` and the parts given so far: the last member takes what is left,
the others their share of the runs, in proportion to their previous runs (evenly when there were
none), and the units those runs make, as far as the quantity goes. -/
def shareOut (runs quantity basis count : Nat) (acc : List Step × DirtySet × Nat × Nat)
    (entry : (Nat × Nat) × Nat) : List Step × DirtySet × Nat × Nat :=
  let (steps, dirty, givenRuns, givenQuantity) := acc
  let ((m, prev), pos) := entry
  let s := stepAt steps m
  let (r, q) :=
    if pos == count - 1 then (runs - givenRuns, quantity - givenQuantity)
    else
      let share := if basis == 0 then runs / count else runs * prev / basis
      (share, Nat.min (Count.satMul share s.out) (quantity - givenQuantity))
  let (steps, dirty) :=
    if s.runs != r || s.quantity != q then
      (steps.set m { s with runs := r, quantity := q }, dirty.mark s.id)
    else (steps, dirty)
  (steps, dirty, givenRuns + r, givenQuantity + q)

/-- Write a logical step's new runs and quantity; a group shares them in proportion to its
members' previous runs. -/
def assign (steps : List Step) (dirty : DirtySet) (members : List Nat) (quantity runs : Nat) :
    Except Fault (List Step × DirtySet) := do
  let previous := members.map fun m => (stepAt steps m).runs
  let basis ← Count.sum? previous
  let (steps, dirty, _, _) := (members.zip previous).zipIdx.foldl
    (shareOut runs quantity basis members.length) (steps, dirty, 0, 0)
  pure (steps, dirty)

def addDemand (demand : List (Nat × Nat)) (child need : Nat) : Except Fault (List (Nat × Nat)) := do
  let total ← Count.add? ((lastValue? demand child).getD 0) need
  pure (putEntry child total demand)

/-- What a step needs of an input material for its runs: the recipe's quantity of the material
(none when it is no input of the recipe) for the runs, adjusted for the step's activity,
material efficiency and bonus. -/
def inputNeed (recipe : Recipe) (head : Step) (runs material : Nat) : Except Fault Nat := do
  let base := (← recipe.inputQuantity material).getD 0
  requiredQuantity base runs head.activity head.me head.matBonus

/-- Pass on what a logical step at `index` needs of an input material to the logical step that
makes it, unless that is the step itself. -/
def passDemand (owner : Nat → Option Nat) (index : Nat) (need : Nat → Except Fault Nat)
    (demand : List (Nat × Nat)) (m : Nat) : Except Fault (List (Nat × Nat)) :=
  match owner m with
  | none => pure demand
  | some child =>
    if child == index then pure demand
    else do addDemand demand child (← need m)

/-- Give a logical step at `index` that is not pinned and has a target or received demand the
quantity `target + demand` and the runs for it. -/
def reassignLogical (pinned : List Ident) (steps : List Step) (dirty : DirtySet)
    (demand : List (Nat × Nat)) (l : Logical) (index : Nat) :
    Except Fault (List Step × DirtySet) := do
  let target ← Count.sum? (l.members.map fun m => (stepAt steps m).target)
  let isPinned := l.members.any fun m => pinned.contains (stepAt steps m).id
  let consumed := lastValue? demand index
  if !isPinned && (consumed.isSome || target > 0) then do
    let quantity ← Count.add? target (consumed.getD 0)
    assign steps dirty l.members quantity (runsFor quantity (stepAt steps (l.members.headD 0)).out)
  else pure (steps, dirty)

/-- Pass on the demand of a logical step at `index` for its runs in `steps`: unless it is bought
or its recipe is missing from the book, ask the owner of every input material of its recipe
(other than itself) for what those runs need. -/
def passOn (book : RecipeBook) (owner : Nat → Option Nat) (steps : List Step)
    (demand : List (Nat × Nat)) (l : Logical) (index : Nat) : Except Fault (List (Nat × Nat)) := do
  let head := stepAt steps (l.members.headD 0)
  if head.purchased then return demand
  let some recipe := book.get? head.key | return demand
  let totalRuns ← Count.sum? (l.members.map fun m => (stepAt steps m).runs)
  recipe.inputMaterials.foldlM (passDemand owner index (inputNeed recipe head totalRuns)) demand

/-- Recalculate one logical step and pass its demand on. -/
def recalculateLogical (book : RecipeBook) (pinned : List Ident) (owner : Nat → Option Nat)
    (acc : List Step × DirtySet × List (Nat × Nat)) (entry : Logical × Nat) :
    Except Fault (List Step × DirtySet × List (Nat × Nat)) := do
  let (steps, dirty, demand) := acc
  let (l, index) := entry
  let (steps, dirty) ← reassignLogical pinned steps dirty demand l index
  let demand ← passOn book owner steps demand l index
  pure (steps, dirty, demand)

/-- Record in every member of a group the sum of the group's runs. -/
def healGroups (logical : List Logical) (steps : List Step) : Except Fault (List Step) :=
  logical.foldlM (fun steps l =>
    if !(stepAt steps (l.members.headD 0)).isSplit then pure steps
    else do
      let total ← Count.sum? (l.members.map fun m => (stepAt steps m).runs)
      pure (l.members.foldl (fun steps m =>
        let s := stepAt steps m
        match s.split with
        | some info => steps.set m { s with split := some { info with total } }
        | none => steps) steps)) steps

/-- The runs a copy step is to take from the runs of the build steps by recipe, when they differ
from what it has. -/
def followRuns (primaries : List (Nat × Nat)) (s : Step) : Option Nat :=
  if !s.isCopy then none
  else (lastValue? primaries s.recipe).filter fun r => s.runs != r || s.quantity != r

def followStep (primaries : List (Nat × Nat)) (s : Step) : Step :=
  match followRuns primaries s with
  | some r => { s with runs := r, quantity := r }
  | none => s

/-- Give every copy step the runs of the build steps of its recipe. -/
def followCopies (logical : List Logical) (steps : List Step) (dirty : DirtySet) :
    Except Fault (List Step × DirtySet) := do
  let primaries ← (logical.filter fun l => (stepAt steps (l.members.headD 0)).activity == .build).mapM
    fun l => do
      let total ← Count.sum? (l.members.map fun m => (stepAt steps m).runs)
      pure ((stepAt steps (l.members.headD 0)).recipe, total)
  let moved := steps.filter fun s => (followRuns primaries s).isSome
  pure (steps.map (followStep primaries), moved.foldl (fun dirty s => dirty.mark s.id) dirty)

/-- The place of the logical step that makes a material: the first whose first member has it as
product. -/
def ownerOf (steps : List Step) (logical : List Logical) (m : Nat) : Option Nat :=
  (logical.zipIdx.find? fun (l, _) => (l.head steps).product == m).map (·.2)

/-- Recalculate steps, keeping the runs of pinned steps. -/
def recalculate (steps : List Step) (book : RecipeBook) (pinned : List Ident) :
    Except Fault Recalculation := do
  let logical := logicalSteps steps
  let (steps, dirty, _) ← logical.zipIdx.foldlM (recalculateLogical book pinned (ownerOf steps logical))
    (steps, {}, [])
  let steps ← healGroups logical steps
  let (steps, dirty) ← followCopies logical steps dirty
  pure ⟨steps, dirty.ids⟩

end Step

end Fabrication
