import Fabrication.Step

/-!
# Editing a step

A user edit sets some of a step's efficiencies, assigns or clears its facility, marks it
bought or not, or takes it in or out of job matching. An edit of one member of a split
group applies to the whole group. Efficiencies above 100 percent are refused before
anything else; then the step must exist; then an assigned facility must resolve to a bonus
for the step's product. Clearing the facility leaves a zero bonus, marked as missing.
-/

namespace Fabrication

/-- A change of facility. -/
inductive FacilityChange where
  | assign (facility : Nat)
  | clear
  deriving DecidableEq, Repr, Inhabited

/-- A user's edit of a step; absent parts stay as they are. -/
structure StepEdit where
  me : Option Nat := none
  te : Option Nat := none
  facility : Option FacilityChange := none
  purchased : Option Bool := none
  autoMatch : Option Bool := none
  deriving DecidableEq, Repr, Inhabited

namespace StepEdit

/-- The first efficiency above 100 percent, material efficiency first. -/
def validate (e : StepEdit) : Except PlanError Unit :=
  match [e.me, e.te].filterMap id |>.find? (· > 100) with
  | some v => .error (.invalidInput (.editEfficiency v))
  | none => .ok ()

/-- Apply the edit to one step, with the bonus the facility change resolved to. -/
def applyTo (e : StepEdit) (bonus : Option (Option Bonus)) (s : Step) : Step :=
  let s := { s with me := e.me.getD s.me, te := e.te.getD s.te,
                    purchased := e.purchased.getD s.purchased,
                    autoMatch := e.autoMatch.getD s.autoMatch }
  match bonus with
  | some (some b) => s.applyBonus b
  | some none => { s.applyBonus Bonus.none with bonusMissing := true }
  | none => s

end StepEdit

namespace Step

/-- Apply an edit to the step with an identifier and to the other members of its group. -/
def applyEdit (steps : List Step) (id : Ident) (edit : StepEdit) (res : Resolver) (user : Nat) :
    Outcome (List Step) := do
  Outcome.ofPlan edit.validate
  let some target := steps.find? (·.id == id)
    | throw (.rejected (.stepNotFound id))
  let bonus ← match edit.facility with
    | some (.assign f) => do
      let b ← res.bonusAt f target.product target.activity.isConversion user
      pure (some (some b))
    | some .clear => pure (some none)
    | none => pure none
  let group := target.group
  pure (steps.map fun s =>
    if s.id == id || (group.isSome && s.group == group) then edit.applyTo bonus s else s)

end Step

end Fabrication
