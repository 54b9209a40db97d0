import Fabrication.Decimal.Arith
import Fabrication.Recipe
import Fabrication.Sort

/-!
# Skills and time multipliers

Operators' skills shorten runs. A skill table lists, per activity, skills and the percentage
each level takes off; the time multiplier of an operator is
`Π max(0, 1 - level * pct / 100)` over the activity's skills, a missing skill counting as
level zero. An activity without entries has multiplier one.
-/

namespace Fabrication

/-- A skill and the percentage of time each of its levels takes off. -/
structure SkillBonus where
  skill : Nat
  pctPerLevel : Decimal
  deriving DecidableEq, Repr, Inhabited

/-- Skill bonuses per activity, in the order they were added. -/
structure SkillTable where
  entries : List (Activity × SkillBonus) := []
  deriving DecidableEq, Repr, Inhabited

/-- Skill levels of one operator: the last level given for a skill counts. -/
structure SkillLevels where
  levels : List (Nat × Nat) := []
  deriving DecidableEq, Repr, Inhabited

namespace SkillLevels

/-- The level of a skill, zero if not given. -/
def levelOf (l : SkillLevels) (skill : Nat) : Nat :=
  match (l.levels.reverse.find? (·.1 == skill)) with
  | some (_, v) => v
  | none => 0

/-- The skills and levels sorted by skill, each skill once with its last level. -/
def sorted (l : SkillLevels) : List (Nat × Nat) :=
  let skills := (l.levels.map (·.1)).foldl (fun acc s => if acc.contains s then acc else acc ++ [s]) []
  (sortBy (· ≤ ·) skills).map fun s => (s, l.levelOf s)

end SkillLevels

namespace SkillTable

def withBonus (t : SkillTable) (a : Activity) (skill : Nat) (pct : Decimal) : SkillTable :=
  ⟨t.entries ++ [(a, ⟨skill, pct⟩)]⟩

/-- The table of the standard skills: industry 3380 and advanced industry 3388 for building,
reactions 45746 for conversion, science 3402 and advanced industry 3388 for duplication. -/
def standard : SkillTable :=
  (({} : SkillTable).withBonus .build 3380 4 |>.withBonus .build 3388 3
    |>.withBonus .convert 45746 4 |>.withBonus .duplicate 3402 5
    |>.withBonus .duplicate 3388 3)

def bonusesOf (t : SkillTable) (a : Activity) : List SkillBonus :=
  (t.entries.filter (·.1 == a)).map (·.2)

/-- The time multiplier of an operator with the given levels. -/
def multiplier (t : SkillTable) (a : Activity) (levels : SkillLevels) : Except Fault Decimal :=
  (t.bonusesOf a).foldlM (fun acc b => do
    let level := levels.levelOf b.skill
    let total ← Decimal.mul (Decimal.ofNat level) b.pctPerLevel
    let cut ← Decimal.div total Decimal.hundred
    let left ← Decimal.sub Decimal.one cut
    Decimal.mul acc (Decimal.max left Decimal.zero)) Decimal.one

end SkillTable

end Fabrication
