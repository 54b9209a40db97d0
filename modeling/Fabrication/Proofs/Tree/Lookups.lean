import Fabrication.Proofs.Outcome
import Fabrication.Tree.Expand

/-!
# Expanding over any lookups

An expansion asks two questions about materials and nothing else: the producer of a material,
and the facility bonus for a material made by a build or by a conversion. `Node.expandBy`
expands over any answers to those questions (`Lookups`); expanding over a snapshot is
expanding over the snapshot's answers (`expandWith_eq_expandBy`).

Two sets of answers give the same expansion, tree or error, when they agree on every question
the expansion can ask (`AgreeBelow`): the bonus of each node's material, and the producer of
each input that is not excluded, down to the depth that is left (`expandBy_congr`).
-/

namespace Fabrication

/-- Answers to the two questions an expansion asks. -/
structure Lookups where
  producerOf : Nat → Option Recipe
  bonusFor : Nat → Bool → Option Bonus

/-- The answers a snapshot gives. -/
def Snapshot.lookups (s : Snapshot) : Lookups := ⟨s.producerOf, s.bonusFor⟩

namespace Node

/-- `expandWith` over the answers of `look`. -/
def expandBy (look : Lookups) (config : EngineConfig) (excluded : List Nat) :
    (levels : Nat) → (recipe : Recipe) → (material quantity depth me te : Nat) →
    (path : List Nat) → Outcome Node
  | 0, _, _, _, _, _, _, _ => .error (.rejected (.depthExceeded config.maxDepth))
  | levels + 1, recipe, material, quantity, depth, me, te, path => do
    let path := path ++ [material]
    let out := Nat.max ((recipe.outputPerRun material).getD 1) 1
    let runs := runsFor quantity out
    let found := look.bonusFor material recipe.activity.isConversion
    let bonus := found.getD Bonus.none
    let reqs ← recipe.inputs.mapM fun input => do
      let required ← Outcome.ofFault
        (requiredQuantity input.quantity runs recipe.activity me bonus.material)
      let source : Supply Node ←
        if excluded.contains input.material then pure .excluded
        else if path.contains input.material then
          throw (.rejected (.cycleDetected (path ++ [input.material])))
        else
          match look.producerOf input.material with
          | none => pure .raw
          | some child =>
            let childMe := config.childMaterialEfficiency child.activity.isConversion
            .made <$> expandBy look config excluded levels child input.material required
              (depth + 1) childMe config.childTimeEfficiency path
      pure (⟨input.material, input.quantity, required, source⟩ : Requirement Node)
    pure (.mk ⟨material, recipe.id, recipe.activity, quantity, runs, out, depth, me, te, bonus,
      found.isNone⟩ reqs)

/-- `expand` over the answers of `look`. -/
def expandOf (look : Lookups) (config : EngineConfig) (excluded : List Nat) (t : Target) :
    Outcome Node :=
  match look.producerOf t.material with
  | none => .error (.rejected (.noProducer t.material))
  | some recipe =>
    expandBy look config excluded (config.maxDepth + 1) recipe t.material t.quantity 0 t.me t.te []

variable {config : EngineConfig} {excluded : List Nat}

theorem expandWith_eq_expandBy (snap : Snapshot) (levels : Nat) (recipe : Recipe)
    (material quantity depth me te : Nat) (path : List Nat) :
    expandWith snap config excluded levels recipe material quantity depth me te path =
      expandBy snap.lookups config excluded levels recipe material quantity depth me te path := by
  induction levels generalizing recipe material quantity depth me te path with
  | zero => rfl
  | succ levels ih =>
    simp only [expandWith, expandBy, ih]
    rfl

theorem expand_eq_expandOf (snap : Snapshot) (t : Target) :
    expand snap config excluded t = expandOf snap.lookups config excluded t := by
  unfold expand expandOf
  split <;> simp [Snapshot.lookups, *, expandWith_eq_expandBy]

/-- Two sets of answers agree on every question that expanding `recipe` for `material` with
`levels` levels left can ask: the bonus of the material, and the producer of each input that
is not excluded, with agreement below each input's producer one level less deep. -/
def AgreeBelow (L₁ L₂ : Lookups) (excluded : List Nat) : Nat → Recipe → Nat → Prop
  | 0, _, _ => True
  | levels + 1, recipe, material =>
    L₁.bonusFor material recipe.activity.isConversion =
        L₂.bonusFor material recipe.activity.isConversion ∧
      ∀ p ∈ recipe.inputs, excluded.contains p.material = false →
        L₁.producerOf p.material = L₂.producerOf p.material ∧
          ∀ child, L₂.producerOf p.material = some child →
            AgreeBelow L₁ L₂ excluded levels child p.material

/-- Answers that agree on every question an expansion asks give the same expansion. -/
theorem expandBy_congr {L₁ L₂ : Lookups} :
    ∀ {levels : Nat} {recipe : Recipe} {material : Nat}, AgreeBelow L₁ L₂ excluded levels recipe material →
      ∀ quantity depth me te path,
        expandBy L₁ config excluded levels recipe material quantity depth me te path =
          expandBy L₂ config excluded levels recipe material quantity depth me te path
  | 0, _, _, _ => fun _ _ _ _ _ => rfl
  | levels + 1, recipe, material, ⟨hbonus, hinputs⟩ => by
    intro quantity depth me te path
    simp only [expandBy, hbonus]
    congr 1
    refine mapM_congr fun p hp => ?_
    congr 1
    funext required
    split
    · rfl
    · rename_i hex
      split
      · rfl
      · obtain ⟨hprod, hbelow⟩ := hinputs p hp (by simpa using hex)
        rw [hprod]
        split
        · rfl
        · rename_i child hchild
          rw [expandBy_congr (hbelow child hchild)]

end Node

end Fabrication
