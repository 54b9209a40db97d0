import Fabrication.Catalog
import Fabrication.Config
import Fabrication.Facility
import Fabrication.Sort

/-!
# Catalogue snapshots

Before a tree is expanded, everything it may need is read from the catalogue level by
level, breadth first, one batch of questions per level; the expansion then runs on this
snapshot alone.

* Level one asks for the producers of the roots. Each later level asks for the producers of
  the inputs first met on the level before, except excluded materials. Materials of a level
  are asked for in ascending order and each material is asked for once.
* A material's producer is a build recipe if it has one and otherwise a conversion, the one
  with the smallest id, the first in catalogue order on a tie.
* At most `maxDepth + 2` levels are read, one more than an expansion within the depth
  limit can use, so that an expansion too deep is still seen to be too deep.
* When copy steps are planned, the duplicate recipes of all build recipes read are fetched
  in one more batch.
* Last, the best facility bonus is looked up for every material with a producer that has
  no bonus given by the user, in ascending order of material.
-/

namespace Fabrication

def producingKinds : List Activity := [.build, .convert]

/-- The preferred producer among recipes: building before conversion, then the smallest id;
the first of equals. -/
def chooseProducer (rs : List Recipe) : Option Recipe :=
  let rank (r : Recipe) : Nat × Nat := (if r.activity == .build then 0 else 1, r.id)
  let before (a b : Recipe) : Bool :=
    (rank a).1 < (rank b).1 || ((rank a).1 == (rank b).1 && (rank a).2 < (rank b).2)
  (rs.filter fun r => producingKinds.contains r.activity).foldl (fun best r =>
    match best with
    | none => some r
    | some b => if before r b then some r else some b) none

/-- What a snapshot is asked to read: for whom, from which roots, which materials are
left out, and facility bonuses given by the user. -/
structure SnapshotRequest where
  user : Nat := 0
  roots : List Nat := []
  excluded : List Nat := []
  overrides : List (Nat × Bonus) := []
  deriving Repr, Inhabited

/-- The reference data of one expansion. -/
structure Snapshot where
  book : RecipeBook := {}
  /-- The key of each material's producer. -/
  producers : List (Nat × RecipeKey) := []
  /-- Bonuses found for a material and whether it is converted. -/
  bonuses : List ((Nat × Bool) × Bonus) := []
  /-- Bonuses given by the user, which win over found ones. -/
  overrides : List (Nat × Bonus) := []
  /-- Levels read from the catalogue. -/
  levels : Nat := 0
  /-- Catalogue reads spent. -/
  reads : Nat := 0
  deriving Repr, Inhabited

namespace Snapshot

def producerOf (s : Snapshot) (material : Nat) : Option Recipe :=
  ((s.producers.reverse.find? (·.1 == material)).map (·.2)).bind s.book.get?

def duplicateOf (s : Snapshot) (id : Nat) : Option Recipe := s.book.get? ⟨id, .duplicate⟩

/-- The bonus for a material: the user's, or else the one found. -/
def bonusFor (s : Snapshot) (material : Nat) (isConversion : Bool) : Option Bonus :=
  match lastValue? s.overrides material with
  | some b => some b
  | none => (s.bonuses.find? (·.1 == (material, isConversion))).map (·.2)

/-- Read one level: the producers of `frontier`, and the materials that the next level asks
for. `seen` holds every material asked for or queued so far. -/
def readLevel (c : Catalog) (excluded : List Nat) (s : Snapshot) (frontier seen : List Nat) :
    Snapshot × List Nat × List Nat :=
  let found := c.findProducers frontier producingKinds
  let start : Snapshot := { s with levels := s.levels + 1,
                                   reads := s.reads + c.producersReads frontier }
  frontier.foldl (fun (acc : Snapshot × List Nat × List Nat) m =>
    let (snap, next, seen) := acc
    match ((found.find? (·.1 == m)).map (·.2)).bind chooseProducer with
    | none => acc
    | some r =>
      let (next, seen) := r.inputs.foldl (fun (q : List Nat × List Nat) p =>
        if excluded.contains p.material || q.2.contains p.material then q
        else (q.1 ++ [p.material], q.2 ++ [p.material])) (next, seen)
      ({ snap with producers := putEntry m r.key snap.producers, book := snap.book.insert r },
        next, seen)) (start, [], seen)

/-- Read levels until nothing is left to ask for or `levels` levels are read. -/
def readLevels (c : Catalog) (excluded : List Nat) :
    Nat → Snapshot → List Nat → List Nat → Snapshot
  | 0, s, _, _ => s
  | n + 1, s, frontier, seen =>
    if frontier.isEmpty then s
    else
      let (s, next, seen) := readLevel c excluded s frontier seen
      readLevels c excluded n s (sortBy (· ≤ ·) next) seen

def readCopies (c : Catalog) (s : Snapshot) : Snapshot :=
  let keys := (s.book.recipes.filter (·.activity == .build)).map fun r => RecipeKey.mk r.id .duplicate
  if keys.isEmpty then s
  else { s with book := s.book.insertAll (c.findRecipes keys), reads := s.reads + c.recipesReads }

/-- Look up the best bonus of every produced material without a bonus given by the user. -/
def readBonuses (res : Resolver) (user : Nat) (s : Snapshot) : Except Fault Snapshot := do
  let wanted := (s.producers.filter fun e => (lastValue? s.overrides e.1).isNone).map
    fun e => (e.1, e.2.activity.isConversion)
  let ordered := sortBy (fun a b => a.1 < b.1 || (a.1 == b.1 && (!a.2 || b.2))) wanted
  ordered.foldlM (fun snap (m, conv) => do
    match ← res.bestBonus m conv user with
    | some b => pure { snap with bonuses := putEntry (m, conv) b snap.bonuses }
    | none => pure snap) s

/-- Read the snapshot for a request. -/
def load (c : Catalog) (res : Resolver) (req : SnapshotRequest) (config : EngineConfig) :
    Except Fault Snapshot :=
  let roots := ascendingSet req.roots
  let s := readLevels c req.excluded (config.maxDepth + 2) { overrides := req.overrides } roots roots
  let s := if config.includeCopySteps then readCopies c s else s
  readBonuses res req.user s

end Snapshot

end Fabrication
