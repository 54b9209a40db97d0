import Fabrication.Decimal.Arith
import Fabrication.Recipe
import Fabrication.Error

/-!
# Facilities and their bonuses

A facility grants percentage bonuses on material use and run time through rules, each for one
activity and either all materials or a listed set. Several rules that apply stack
multiplicatively: the bonus is `100 * (1 - Π (1 - pct / 100))`, written without trailing
zeros. A registry holds a user's facilities by id; the best bonus among them is the one with
the largest material bonus, then the largest time bonus, then the smallest facility id.
-/

namespace Fabrication

/-- Material and time bonus in percent, and the facility that grants them (if any). -/
structure Bonus where
  material : Decimal
  time : Decimal
  facility : Option Nat
  deriving DecidableEq, Repr, Inhabited

namespace Bonus

def none : Bonus := ⟨Decimal.zero, Decimal.zero, Option.none⟩

/-- Better: a larger material bonus, then a larger time bonus, then a facility over none and
a smaller facility id over a larger one. -/
def isBetterThan (a b : Bonus) : Bool :=
  if !(a.material.sameValue b.material) then b.material < a.material
  else if !(a.time.sameValue b.time) then b.time < a.time
  else match a.facility, b.facility with
    | some x, some y => x < y
    | some _, Option.none => true
    | _, _ => false

end Bonus

/-- A rule of a facility: the activity it applies to, the materials (all if `none`), and the
bonuses it grants. -/
structure FacilityRule where
  activity : Activity
  materials : Option (List Nat)
  material : Decimal
  time : Decimal
  deriving DecidableEq, Repr, Inhabited

def FacilityRule.appliesTo (r : FacilityRule) (m : Nat) (a : Activity) : Bool :=
  r.activity == a && (match r.materials with
    | Option.none => true
    | some ms => ms.contains m)

/-- A facility: id, name and rules in order. -/
structure Facility where
  id : Nat
  name : String
  rules : List FacilityRule
  deriving DecidableEq, Repr, Inhabited

namespace Facility

def covers (f : Facility) (m : Nat) (a : Activity) : Bool := f.rules.any (·.appliesTo m a)

/-- The factors `Π (1 - pct / 100)` of material and time over the applying rules. -/
def factors (rules : List FacilityRule) : Except Fault (Decimal × Decimal) :=
  rules.foldlM (fun (mf, tf) r => do
    let mp ← Decimal.div r.material Decimal.hundred
    let ml ← Decimal.sub Decimal.one mp
    let mf ← Decimal.mul mf ml
    let tp ← Decimal.div r.time Decimal.hundred
    let tl ← Decimal.sub Decimal.one tp
    let tf ← Decimal.mul tf tl
    pure (mf, tf)) (Decimal.one, Decimal.one)

/-- The percentage left out by a factor: `100 * (1 - factor)`, without trailing zeros. -/
def percentOf (factor : Decimal) : Except Fault Decimal := do
  let part ← Decimal.sub Decimal.one factor
  let pct ← Decimal.mul part Decimal.hundred
  pure pct.normalize

/-- The stacked bonus of the rules that apply, `none` when no rule applies. -/
def bonusFor (f : Facility) (m : Nat) (a : Activity) : Except Fault (Option Bonus) := do
  let applying := f.rules.filter (·.appliesTo m a)
  if applying.isEmpty then return Option.none
  let (mf, tf) ← factors applying
  let mat ← percentOf mf
  let time ← percentOf tf
  return some ⟨mat, time, some f.id⟩

end Facility

/-- A user's facilities, by ascending id; a facility replaces the one with its id. -/
structure Registry where
  facilities : List Facility := []
  deriving DecidableEq, Repr, Inhabited

namespace Registry

/-- Put a facility in, replacing the one with its id and keeping ids ascending. -/
def insert (r : Registry) (f : Facility) : Registry :=
  ⟨go r.facilities⟩
where
  go : List Facility → List Facility
    | [] => [f]
    | g :: gs => if g.id = f.id then f :: gs else if f.id < g.id then f :: g :: gs else g :: go gs

/-- A registry of the given facilities, later ones replacing earlier ones with the same id. -/
def ofList (fs : List Facility) : Registry := fs.foldl insert {}

def get? (r : Registry) (id : Nat) : Option Facility := r.facilities.find? (·.id == id)

def size (r : Registry) : Nat := r.facilities.length

/-- Keep the better of the best so far and a candidate; a candidate that is not better
loses. -/
def keepBetter (best : Option Bonus) (candidate : Bonus) : Option Bonus :=
  match best with
  | some current => if candidate.isBetterThan current then some candidate else some current
  | Option.none => some candidate

/-- The best bonus of all facilities for a material and activity, `none` if none covers it.
Facilities are visited by ascending id. -/
def bestFor (r : Registry) (m : Nat) (a : Activity) : Except Fault (Option Bonus) := do
  let bonuses ← r.facilities.mapM (·.bonusFor m a)
  return bonuses.foldl (fun best b? => match b? with
    | some b => keepBetter best b
    | Option.none => best) Option.none

/-- The bonus of one facility: refused if the facility is unknown, zero (with the facility)
if it does not cover the material. -/
def bonusAt (r : Registry) (id m : Nat) (a : Activity) : Outcome Bonus :=
  match r.get? id with
  | Option.none => .error (.rejected (.bonusUnavailable (.unknownFacility id)))
  | some f => do
    let b ← Outcome.ofFault (f.bonusFor m a)
    return b.getD { Bonus.none with facility := some id }

end Registry

/-- Registries by user; a later registry for a user replaces the earlier one. -/
structure Resolver where
  registries : List (Nat × Registry) := []
  deriving Repr, Inhabited

namespace Resolver

def insert (res : Resolver) (user : Nat) (r : Registry) : Resolver :=
  ⟨(res.registries.filter (·.1 != user)) ++ [(user, r)]⟩

def registryOf? (res : Resolver) (user : Nat) : Option Registry :=
  (res.registries.find? (·.1 == user)).map (·.2)

def activityFor (isConversion : Bool) : Activity := if isConversion then .convert else .build

/-- The best bonus among the user's facilities; `none` for a user without a registry. -/
def bestBonus (res : Resolver) (m : Nat) (isConversion : Bool) (user : Nat) :
    Except Fault (Option Bonus) :=
  match res.registryOf? user with
  | Option.none => .ok Option.none
  | some r => r.bestFor m (activityFor isConversion)

/-- The bonus at a named facility of the user; refused for a user without a registry. -/
def bonusAt (res : Resolver) (facility m : Nat) (isConversion : Bool) (user : Nat) :
    Outcome Bonus :=
  match res.registryOf? user with
  | Option.none => .error (.rejected (.bonusUnavailable (.noFacilities user)))
  | some r => r.bonusAt facility m (activityFor isConversion)

end Resolver

end Fabrication
