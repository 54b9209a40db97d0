import Fabrication.Proofs.Step.Consolidate
import Fabrication.Proofs.Tree.Unfolding
import Fabrication.Proofs.Snapshot.Levels
import Fabrication.Calculation
import Mathlib

/-!
# The order of the targets

A plan does not depend on the order in which its request lists the targets, as long as no two
nodes of one recipe key can give their step different values (`calculate_targets_reordered`).
Two conditions ensure this:

* the recipes of each key of the catalogue make one material (`Catalog.OneMaterialPerKey`);
* targets of one material and one material efficiency ask for one time efficiency
  (`Target.TimeEfficiencyFixed`).

When both hold, the calculation on the reordered targets succeeds exactly when the calculation
on the original ones does. It then gives the same raw materials, and the same steps except for
identifiers.

Each stage is compared with `Planning.Agree`:

* the request is valid for both orders or for neither;
* the snapshot is the same, since it reads the targets' materials as a set;
* the trees are the same trees, reordered;
* merging them makes the same steps except for identifiers (`Step.ofForest_agree`);
* reconciling, the raw materials and scheduling read no identifiers.

Without the conditions the order matters. Two targets of one material and one material
efficiency, but with different time efficiencies, merge into one step, and that step takes the
time efficiency of whichever target comes first.
-/

namespace Fabrication

/-! ### Conditions on the catalogue and the targets -/

/-- The recipes of each key make one material: all outputs of the recipes of one key are of one
material. -/
def Catalog.OneMaterialPerKey (c : Catalog) : Prop :=
  ∀ r ∈ c.recipes, ∀ r' ∈ c.recipes, r.key = r'.key →
    ∀ o ∈ r.outputs, ∀ o' ∈ r'.outputs, o.material = o'.material

instance (c : Catalog) : Decidable c.OneMaterialPerKey := by
  unfold Catalog.OneMaterialPerKey
  infer_instance

/-- Targets of one material and one material efficiency ask for one time efficiency. -/
def Target.TimeEfficiencyFixed (targets : List Target) : Prop :=
  ∀ t ∈ targets, ∀ t' ∈ targets, t.material = t'.material → t.me = t'.me → t.te = t'.te

instance (targets : List Target) : Decidable (Target.TimeEfficiencyFixed targets) := by
  unfold Target.TimeEfficiencyFixed
  infer_instance

/-! ### Checking the request -/

namespace PlanRequest

/-- A request is valid when it has targets and none of them is rejected. -/
theorem validate_ok_iff (r : PlanRequest) :
    r.validate = .ok () ↔ r.targets ≠ [] ∧
      ∀ t ∈ r.targets, (t.quantity == 0 || t.me > 100 || t.te > 100) = false := by
  unfold validate
  by_cases hempty : r.targets.isEmpty
  · rw [if_pos hempty]
    simp [List.isEmpty_iff.1 hempty]
  · rw [if_neg hempty]
    have hne : r.targets ≠ [] := fun h => hempty (List.isEmpty_iff.2 h)
    cases hfind : r.targets.find? fun t => t.quantity == 0 || t.me > 100 || t.te > 100 with
    | none =>
      simpa [hne] using List.find?_eq_none.1 hfind
    | some t =>
      have hbad := List.find?_some hfind
      have hmem := List.mem_of_find?_eq_some hfind
      have hrejected : ¬(r.targets ≠ [] ∧
          ∀ t ∈ r.targets, (t.quantity == 0 || t.me > 100 || t.te > 100) = false) :=
        fun ⟨_, hall⟩ => Bool.false_ne_true ((hall t hmem).symm.trans hbad)
      dsimp only
      split <;> exact iff_of_false (fun h => by cases h) hrejected

theorem validate_reordered {r : PlanRequest} {ts : List Target} (h : ts.Perm r.targets) :
    { r with targets := ts }.validate = .ok () ↔ r.validate = .ok () := by
  have hnil : ts = [] ↔ r.targets = [] := by
    rw [← List.length_eq_zero_iff, h.length_eq, List.length_eq_zero_iff]
  rw [validate_ok_iff, validate_ok_iff]
  exact and_congr (not_congr hnil) (forall_congr' fun t => imp_congr_left h.mem_iff)

end PlanRequest

theorem exists_ofPlan_ok_iff {α : Type} (x : Except PlanError α) :
    (∃ a, Outcome.ofPlan x = .ok a) ↔ ∃ a, x = .ok a := by
  cases x <;> simp [Outcome.ofPlan, Except.mapError]

/-- A request is valid for both orders of its targets or for neither. -/
theorem PlanRequest.agree_validate {r : PlanRequest} {ts : List Target} (h : ts.Perm r.targets) :
    Planning.Agree (fun _ _ => True)
      (Planning.ofOutcome (Outcome.ofPlan { r with targets := ts }.validate))
      (Planning.ofOutcome (Outcome.ofPlan r.validate)) := by
  refine Planning.agree_ofOutcome ?_ fun _ _ _ _ => trivial
  rw [exists_ofPlan_ok_iff, exists_ofPlan_ok_iff]
  constructor
  · rintro ⟨⟨⟩, hv⟩
    exact ⟨(), (validate_reordered h).1 hv⟩
  · rintro ⟨⟨⟩, hv⟩
    exact ⟨(), (validate_reordered h).2 hv⟩

/-! ### Reading the snapshot -/

/-- Lists of the same members have the same ascending set. -/
theorem ascendingSet_congr {xs ys : List Nat} (h : ∀ x, x ∈ xs ↔ x ∈ ys) :
    ascendingSet xs = ascendingSet ys := by
  have htotal : ∀ a b : Nat, decide (a ≤ b) = true ∨ decide (b ≤ a) = true := fun a b => by
    simpa using Nat.le_total a b
  have hsorted : ∀ zs, (ascendingSet zs).Pairwise (· ≤ ·) := fun zs =>
    (sortBy_pairwise htotal (fun a b c hab hbc => by simp only [decide_eq_true_eq] at *; omega)
      _).imp (by simp)
  refine List.Perm.eq_of_pairwise (fun a b _ _ hab hba => Nat.le_antisymm hab hba) (hsorted xs)
    (hsorted ys) ?_
  rw [List.perm_ext_iff_of_nodup (ascendingSet_nodup xs) (ascendingSet_nodup ys)]
  intro x
  rw [mem_ascendingSet, mem_ascendingSet, h]

/-- The snapshot of a request does not depend on the order of its targets. -/
theorem load_reordered (c : Catalog) (res : Resolver) (config : EngineConfig) {r : PlanRequest}
    {ts : List Target} (h : ts.Perm r.targets) :
    Snapshot.load c res { r with targets := ts }.snapshotRequest config =
      Snapshot.load c res r.snapshotRequest config := by
  have hroots : ascendingSet (ts.map (·.material)) = ascendingSet (r.targets.map (·.material)) :=
    ascendingSet_congr fun m => (h.map _).mem_iff
  simp only [Snapshot.load, PlanRequest.snapshotRequest, hroots]

/-! ### Expanding the targets -/

/-- Calls related element by element to a list are related to any reordering of it, reordered
alike. -/
theorem forall₂_reordered {α β : Type} {R : α → β → Prop} {l l' : List α} {ys : List β}
    (h : l'.Perm l) (hl : List.Forall₂ R l ys) : ∃ ys', List.Forall₂ R l' ys' ∧ ys'.Perm ys := by
  induction h generalizing ys with
  | nil => exact ⟨[], .nil, by cases hl; rfl⟩
  | cons x _ ih =>
    obtain ⟨y, zs, hxy, hzs, rfl⟩ := List.forall₂_cons_left_iff.1 hl
    obtain ⟨zs', hzs', hp⟩ := ih hzs
    exact ⟨y :: zs', .cons hxy hzs', hp.cons y⟩
  | swap x y l =>
    obtain ⟨b, zs, hb, hzs, rfl⟩ := List.forall₂_cons_left_iff.1 hl
    obtain ⟨a, zs', ha, hzs', rfl⟩ := List.forall₂_cons_left_iff.1 hzs
    exact ⟨a :: b :: zs', .cons ha (.cons hb hzs'), .swap _ _ _⟩
  | trans _ _ ih₁ ih₂ =>
    obtain ⟨zs, hzs, hp⟩ := ih₂ hl
    obtain ⟨zs', hzs', hp'⟩ := ih₁ hzs
    exact ⟨zs', hzs', hp'.trans hp⟩

namespace Node

variable {snap : Snapshot} {config : EngineConfig} {excluded : List Nat}

/-- Expanding reordered targets gives the same trees, reordered. -/
theorem expandAll_reordered {targets ts : List Target} {forest : List Node}
    (h : ts.Perm targets) (hf : expandAll snap config excluded targets = .ok forest) :
    ∃ forest', expandAll snap config excluded ts = .ok forest' ∧ forest'.Perm forest := by
  obtain ⟨forest', hf', hp⟩ := forall₂_reordered h (mapM_ok_iff_forall₂.1 hf)
  exact ⟨forest', mapM_ok_iff_forall₂.2 hf', hp⟩

/-- Expanding reordered targets succeeds together with expanding the original ones, and gives
their trees reordered. -/
theorem agree_expandAll {targets ts : List Target} (h : ts.Perm targets) :
    Planning.Agree (fun forest' forest => forest'.Perm forest ∧
        expandAll snap config excluded targets = .ok forest)
      (Planning.ofOutcome (expandAll snap config excluded ts))
      (Planning.ofOutcome (expandAll snap config excluded targets)) := by
  refine Planning.agree_ofOutcome ⟨?_, ?_⟩ fun f' f hf' hf => ?_
  · rintro ⟨f', hf'⟩
    obtain ⟨f, hf, -⟩ := expandAll_reordered h.symm hf'
    exact ⟨f, hf⟩
  · rintro ⟨f, hf⟩
    obtain ⟨f', hf', -⟩ := expandAll_reordered h hf
    exact ⟨f', hf'⟩
  · obtain ⟨f'', hf'', hp⟩ := expandAll_reordered h hf
    exact ⟨Except.ok.inj (hf'.symm.trans hf'') ▸ hp, hf⟩

/-! ### The nodes of the trees -/

section Uniform

variable {c : Catalog} {res : Resolver} {sr : SnapshotRequest}

/-- Two producers of one key, in the snapshot of a catalogue whose keys make one material,
produce one material. -/
theorem material_eq_of_producers (hload : Snapshot.load c res sr config = .ok snap)
    (hc : c.OneMaterialPerKey) {m m' : Nat} {R R' : Recipe} (hR : snap.producerOf m = some R)
    (hR' : snap.producerOf m' = some R') (hk : R.key = R'.key) : m = m' := by
  obtain ⟨r, hr, hrk, hrm⟩ := Snapshot.producerOf_made hload hR
  obtain ⟨r', hr', hrk', hrm'⟩ := Snapshot.producerOf_made hload hR'
  obtain ⟨o, ho, hom⟩ := List.any_eq_true.1 hrm
  obtain ⟨o', ho', hom'⟩ := List.any_eq_true.1 hrm'
  have hsame := hc r hr r' hr' (hrk.trans (hk.trans hrk'.symm)) o ho o' ho'
  simp only [beq_iff_eq] at hom hom'
  rw [← hom, ← hom', hsame]

/-- The nodes of the trees of targets are uniform, when the catalogue's keys make one material
and the targets fix their time efficiencies. -/
theorem expandAll_uniform (hload : Snapshot.load c res sr config = .ok snap)
    (hc : c.OneMaterialPerKey) {targets : List Target} (htime : Target.TimeEfficiencyFixed targets)
    {forest : List Node} (h : expandAll snap config excluded targets = .ok forest) :
    Step.Uniform (forest.flatMap fun t => t.nodes.map (·.head)) := by
  have hunfolded := expandAll_unfolded h
  have hrel := mapM_forall₂ (fun g t => expand snap config excluded g = .ok t) h
    fun _ _ _ hg => hg
  intro e he e' he' hk
  obtain ⟨t, ht, x, hx, rfl⟩ : ∃ t ∈ forest, ∃ x ∈ t.nodes, x.head = e := by simpa using he
  obtain ⟨t', ht', x', hx', rfl⟩ : ∃ t ∈ forest, ∃ x ∈ t.nodes, x.head = e' := by simpa using he'
  obtain ⟨R, hR, hid, hact, hout, -, hbonus, hmissing, -⟩ := hunfolded t ht x hx
  obtain ⟨R', hR', hid', hact', hout', -, hbonus', hmissing', -⟩ := hunfolded t' ht' x' hx'
  -- the nodes' producers share the key, so the nodes make one material, with one producer
  have hkey : R.key = R'.key := by
    have hk' : (⟨x.head.recipe, x.head.activity⟩ : RecipeKey) =
        ⟨x'.head.recipe, x'.head.activity⟩ := hk
    rw [hid, hact, hid', hact'] at hk'
    exact hk'
  have hmat := material_eq_of_producers hload hc hR hR' hkey
  obtain rfl : R = R' := Option.some.inj (hR.symm.trans (hmat ▸ hR'))
  refine ⟨hmat, by rw [hout, hout', hmat], by rw [hbonus, hbonus', hmat],
    by rw [hmissing, hmissing', hmat], fun hrank => ?_⟩
  -- nodes that rank alike are both roots, of targets that fix the time efficiency, or both below
  obtain ⟨hdepth, hme⟩ := Expansion.rank_eq_iff.1 hrank
  obtain ⟨g, hg, hgt⟩ := exists_of_forall₂_right hrel ht
  obtain ⟨g', hg', hgt'⟩ := exists_of_forall₂_right hrel ht'
  rcases expand_nodes_efficiencies hgt x hx with ⟨hd, hm, hme₀, hte⟩ | ⟨hd, -, hte⟩ <;>
    rcases expand_nodes_efficiencies hgt' x' hx' with ⟨hd', hm', hme₀', hte'⟩ | ⟨hd', -, hte'⟩
  · rw [hte, hte']
    exact htime g hg g' hg' (hm.symm.trans (hmat.trans hm')) (hme₀.symm.trans (hme.trans hme₀'))
  · omega
  · omega
  · rw [hte, hte']

/-- The nodes of trees read from a snapshot are made by producing recipes, never by copying. -/
theorem expandAll_not_duplicate (hload : Snapshot.load c res sr config = .ok snap)
    {targets : List Target} {forest : List Node}
    (h : expandAll snap config excluded targets = .ok forest) :
    ∀ t ∈ forest, ∀ x ∈ t.nodes, x.head.activity ≠ .duplicate := by
  intro t ht x hx hdup
  obtain ⟨R, hR, -, hact, -⟩ := expandAll_unfolded h t ht x hx
  have hkind := (Snapshot.producerOf_loaded hload hR).2
  rw [← hact, hdup] at hkind
  exact absurd hkind (by decide)

end Uniform

theorem expandAll_runs {targets : List Target} {forest : List Node}
    (h : expandAll snap config excluded targets = .ok forest) :
    ∀ t ∈ forest, ∀ x ∈ t.nodes, x.head.runs = runsFor x.head.quantity x.head.out := by
  intro t ht x hx
  obtain ⟨R, -, -, -, -, hruns, -⟩ := expandAll_unfolded h t ht x hx
  exact hruns

end Node

/-! ### Reconciling and raw materials -/

/-- Reconciling steps that agree except for identifiers succeeds together, with results that
agree except for identifiers. -/
theorem Step.agree_reconcile {steps steps' : List Step} {book : RecipeBook}
    (h : steps'.map Step.sansIds = steps.map Step.sansIds) :
    Planning.Agree (fun a b => a.map Step.sansIds = b.map Step.sansIds)
      (Planning.ofOutcome (Step.reconcile steps' book))
      (Planning.ofOutcome (Step.reconcile steps book)) := by
  refine Planning.agree_ofOutcome_map ?_
  rw [← Step.reconcile_sansIds, ← Step.reconcile_sansIds, h]

/-- The raw materials of steps read no identifiers. -/
theorem rawMaterials_sansIds (steps : List Step) (book : RecipeBook) :
    rawMaterials (steps.map Step.sansIds) book = rawMaterials steps book := by
  simp only [rawMaterials, List.filter_map, List.map_map, List.foldlM_map]
  rfl

/-! ### Calculating with the targets reordered -/

section Calculate

variable {config : EngineConfig} {table : SkillTable} {catalog : Catalog} {res : Resolver}
  {world : World} {req : PlanRequest} {ts : List Target}

open Planning in
/-- The calculation on reordered targets agrees with the calculation on the original ones:
they succeed together, with the same raw materials and the same steps except for identifiers. -/
theorem calculate_agree (hperm : ts.Perm req.targets) (hcat : catalog.OneMaterialPerKey)
    (htime : Target.TimeEfficiencyFixed req.targets) :
    Agree (fun c' c : Calculation => c'.raw = c.raw ∧
        c'.steps.map Step.sansIds = c.steps.map Step.sansIds)
      (calculate config table catalog res world { req with targets := ts })
      (calculate config table catalog res world req) := by
  unfold calculate
  refine Agree.bind (PlanRequest.agree_validate hperm) fun _ _ _ => ?_
  rw [load_reordered catalog res config hperm]
  refine Agree.bind (agree_ofFault_self _) ?_
  rintro snap' snap ⟨rfl, hload⟩
  refine Agree.bind (Node.agree_expandAll hperm) ?_
  rintro forest' forest ⟨hp, htrees⟩
  refine Agree.bind (Step.ofForest_agree hp (Node.expandAll_runs htrees)
    (Node.expandAll_uniform hload hcat htime htrees) (Node.expandAll_not_duplicate hload htrees))
    fun steps' steps hviews => ?_
  refine Agree.bind (Step.agree_reconcile hviews) fun steps₁' steps₁ hviews₁ => ?_
  rw [← rawMaterials_sansIds steps₁', hviews₁, rawMaterials_sansIds]
  refine Agree.bind (agree_ofFault_self _) ?_
  rintro raw' raw ⟨hraw, -⟩
  refine Agree.bind (agree_ofFault_self _) ?_
  rintro sched _ ⟨rfl, -⟩
  refine Agree.bind (Scheduler.schedule_alike sched snap'.book hviews₁).agree
    fun steps₂' steps₂ hviews₂ => ?_
  exact Agree.pure ⟨hraw, hviews₂⟩

/-- Reordering the targets of a request does not change its plan, when the catalogue's keys
make one material and the targets fix their time efficiencies: the calculation succeeds exactly
when it does on the original order, with the same raw materials and the same steps except for
identifiers. -/
theorem calculate_targets_reordered (hperm : ts.Perm req.targets)
    (hcat : catalog.OneMaterialPerKey) (htime : Target.TimeEfficiencyFixed req.targets)
    (σ' σ : IdSupply) :
    ((∃ r, (calculate config table catalog res world { req with targets := ts }).run σ' = .ok r) ↔
        ∃ r, (calculate config table catalog res world req).run σ = .ok r) ∧
      ∀ c' ρ' c ρ,
        (calculate config table catalog res world { req with targets := ts }).run σ' = .ok (c', ρ') →
        (calculate config table catalog res world req).run σ = .ok (c, ρ) →
        c'.raw = c.raw ∧ c'.steps.map Step.sansIds = c.steps.map Step.sansIds :=
  calculate_agree hperm hcat htime σ' σ

end Calculate

/-- One build from a single input: a `1` takes a `2`. -/
def singleBuild : Catalog := { recipes := [⟨1, .build, [⟨2, 1⟩], [⟨1, 1⟩], 100⟩] }

/-- Two targets of `1` that ask for one time efficiency plan alike in either order. -/
theorem calculate_targets_reordered_singleBuild :
    [{ material := 1, quantity := 1, te := 10 }, { material := 1, quantity := 2, te := 10 }].Perm
        ([{ material := 1, quantity := 2, te := 10 }, { material := 1, quantity := 1, te := 10 }] :
          List Target) ∧
      singleBuild.OneMaterialPerKey ∧
      Target.TimeEfficiencyFixed
        [{ material := 1, quantity := 2, te := 10 }, { material := 1, quantity := 1, te := 10 }] ∧
      (((∃ r, (calculate {} SkillTable.standard singleBuild {} { recipes := singleBuild.recipes }
          { targets := [{ material := 1, quantity := 1, te := 10 },
            { material := 1, quantity := 2, te := 10 }] }).run {} = .ok r) ↔
        ∃ r, (calculate {} SkillTable.standard singleBuild {} { recipes := singleBuild.recipes }
          { targets := [{ material := 1, quantity := 2, te := 10 },
            { material := 1, quantity := 1, te := 10 }] }).run {} = .ok r) ∧
      ∀ c' ρ' c ρ,
        (calculate {} SkillTable.standard singleBuild {} { recipes := singleBuild.recipes }
          { targets := [{ material := 1, quantity := 1, te := 10 },
            { material := 1, quantity := 2, te := 10 }] }).run {} = .ok (c', ρ') →
        (calculate {} SkillTable.standard singleBuild {} { recipes := singleBuild.recipes }
          { targets := [{ material := 1, quantity := 2, te := 10 },
            { material := 1, quantity := 1, te := 10 }] }).run {} = .ok (c, ρ) →
        c'.raw = c.raw ∧ c'.steps.map Step.sansIds = c.steps.map Step.sansIds) :=
  ⟨by decide, by decide, by decide,
    @calculate_targets_reordered _ _ _ _ _
      { targets := [{ material := 1, quantity := 2, te := 10 },
        { material := 1, quantity := 1, te := 10 }] } _ (by decide) (by decide) (by decide) {} {}⟩

end Fabrication
