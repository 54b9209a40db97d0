import Fabrication.Proofs.Outcome
import Fabrication.Step.Edit
import Fabrication.Step.Recalculate
import Fabrication.Step.Schedule

/-!
# What the step transformations keep

A stored job match names a step by its identifier and relies on the recipe and activity of
that step. Editing, recalculating and attaching durations change neither which steps a plan
has nor their recipes and activities, so they keep `Step.ident` position by position.
Splitting keeps every step as the first member of its group (`splitExcept_ident`).
-/

namespace Fabrication

namespace Step

/-- What a stored job match relies on in a step: its identifier, recipe and activity. -/
def ident (s : Step) : Ident × Nat × Activity := (s.id, s.recipe, s.activity)

theorem map_ident_set {steps : List Step} {i : Nat} {t : Step}
    (h : t.ident = (stepAt steps i).ident) : (steps.set i t).map ident = steps.map ident := by
  rw [List.map_set]
  by_cases hi : i < steps.length
  · have hat : stepAt steps i = steps[i] := by simp [stepAt, hi]
    rw [h, hat]
    apply List.ext_getElem (by simp)
    intro j _ _
    by_cases hj : i = j
    · subst hj; simp
    · simp [hj]
  · rw [List.set_eq_of_length_le (by simp; omega)]

/-- Changing the runs and quantity of a step keeps the identities of the steps. -/
@[simp] theorem map_ident_update (steps : List Step) (i r q : Nat) :
    (steps.set i { stepAt steps i with runs := r, quantity := q }).map ident = steps.map ident :=
  map_ident_set rfl

theorem assign_ident {steps steps' : List Step} {dirty dirty' : DirtySet} {members : List Nat}
    {quantity runs : Nat} (h : assign steps dirty members quantity runs = .ok (steps', dirty')) :
    steps'.map ident = steps.map ident := by
  unfold assign at h
  obtain ⟨basis, -, h⟩ := ok_of_bind h
  cases h
  clear h
  apply List.foldlRecOn (motive := fun acc : List Step × DirtySet × Nat × Nat =>
    acc.1.map ident = steps.map ident) _ _ rfl
  rintro ⟨st, d, gr, gq⟩ hst ⟨⟨m, prev⟩, pos⟩ -
  unfold shareOut
  dsimp only at hst ⊢
  split_ifs <;> simp only [map_ident_update, hst]

/-- One logical step of a recalculation either leaves the steps alone or reassigns the runs
and quantities of its members. -/
theorem recalculateLogical_steps {book : RecipeBook} {pinned : List Ident}
    {owner : Nat → Option Nat} {st : List Step} {d : DirtySet} {dem : List (Nat × Nat)}
    {acc' : List Step × DirtySet × List (Nat × Nat)} {l : Logical} {index : Nat}
    (h : recalculateLogical book pinned owner (st, d, dem) (l, index) = .ok acc') :
    (acc'.1, acc'.2.1) = (st, d) ∨
      ∃ q r, assign st d l.members q r = .ok (acc'.1, acc'.2.1) := by
  unfold recalculateLogical at h
  obtain ⟨⟨st₁, d₁⟩, hre, h⟩ := ok_of_bind h
  obtain ⟨dem₁, -, h⟩ := ok_of_bind h
  cases h
  unfold reassignLogical at hre
  obtain ⟨target, -, hre⟩ := ok_of_bind hre
  dsimp only at hre
  split at hre
  · obtain ⟨q, -, hre⟩ := ok_of_bind hre
    exact .inr ⟨q, _, hre⟩
  · cases hre
    exact .inl rfl

theorem recalculateLogical_ident {book : RecipeBook} {pinned : List Ident}
    {owner : Nat → Option Nat} {acc acc' : List Step × DirtySet × List (Nat × Nat)}
    {entry : Logical × Nat} (h : recalculateLogical book pinned owner acc entry = .ok acc') :
    acc'.1.map ident = acc.1.map ident := by
  obtain ⟨st, d, dem⟩ := acc
  obtain ⟨l, index⟩ := entry
  rcases recalculateLogical_steps h with he | ⟨q, r, ha⟩
  · rw [show acc'.1 = st from congrArg Prod.fst he]
  · exact assign_ident ha

theorem healGroups_ident {logical : List Logical} {steps steps' : List Step}
    (h : healGroups logical steps = .ok steps') : steps'.map ident = steps.map ident := by
  unfold healGroups at h
  refine foldlM_invariant (fun st : List Step => st.map ident = steps.map ident) h rfl ?_
  intro st l st' _ hst hstep
  split at hstep
  · cases hstep; exact hst
  · obtain ⟨total, -, hstep⟩ := ok_of_bind hstep
    cases hstep
    apply List.foldlRecOn (motive := fun st' : List Step => st'.map ident = steps.map ident) _ _ hst
    intro st'' hst'' m _
    dsimp only
    split
    · rw [map_ident_set (by rfl), hst'']
    · exact hst''

theorem followCopies_ident {logical : List Logical} {steps steps' : List Step}
    {dirty dirty' : DirtySet} (h : followCopies logical steps dirty = .ok (steps', dirty')) :
    steps'.map ident = steps.map ident := by
  unfold followCopies at h
  obtain ⟨primaries, -, h⟩ := ok_of_bind h
  cases h
  simp only [List.map_map]
  apply List.map_congr_left
  intro s _
  simp only [Function.comp, followStep]
  split <;> rfl

/-- Recalculation changes runs, quantities and group totals, never which steps there are. -/
theorem recalculate_ident {steps : List Step} {book : RecipeBook} {pinned : List Ident}
    {r : Recalculation} (h : recalculate steps book pinned = .ok r) :
    r.steps.map ident = steps.map ident := by
  unfold recalculate at h
  obtain ⟨⟨s1, d1, dem⟩, h1, h⟩ := ok_of_bind h
  obtain ⟨s2, h2, h⟩ := ok_of_bind h
  obtain ⟨⟨s3, d3⟩, h3, h⟩ := ok_of_bind h
  cases h
  have e1 : s1.map ident = steps.map ident :=
    foldlM_invariant (fun acc : List Step × DirtySet × List (Nat × Nat) =>
      acc.1.map ident = steps.map ident) h1 rfl
      fun acc _ acc' _ hacc hstep => (recalculateLogical_ident hstep).trans hacc
  exact (followCopies_ident h3).trans ((healGroups_ident h2).trans e1)

@[simp] theorem applyTo_ident (e : StepEdit) (b : Option (Option Bonus)) (s : Step) :
    (e.applyTo b s).ident = s.ident := by
  unfold StepEdit.applyTo
  split <;> rfl

theorem map_ident_map {steps : List Step} {f : Step → Step} (hf : ∀ s, (f s).ident = s.ident) :
    (steps.map f).map ident = steps.map ident := by
  simp [List.map_map, Function.comp_def, hf]

theorem applyEdit_ident {steps steps' : List Step} {id : Ident} {edit : StepEdit}
    {res : Resolver} {user : Nat} (h : applyEdit steps id edit res user = .ok steps') :
    steps'.map ident = steps.map ident := by
  unfold applyEdit at h
  obtain ⟨_, -, h⟩ := ok_of_bind h
  split at h
  · dsimp only at h
    split at h
    on_goal 1 => obtain ⟨b, -, h⟩ := ok_of_bind h
    all_goals
      cases h
      exact map_ident_map fun s => by split <;> simp
  · cases h

theorem foldlM_prepend {α δ : Type} (Q : α → Step → Prop)
    {F : List Step × δ → α → Planning (List Step × δ)} {l : List α} {acc r : List Step × δ}
    {σ τ : IdSupply} (h : (l.foldlM F acc).run σ = .ok (r, τ))
    (hF : ∀ acc x c ρ ρ', x ∈ l → (F acc x).run ρ = .ok (c, ρ') → ∃ m, c.1 = m :: acc.1 ∧ Q x m) :
    ∃ ms, r.1 = ms.reverse ++ acc.1 ∧ List.Forall₂ Q l ms := by
  induction l generalizing acc σ with
  | nil => cases h; exact ⟨[], rfl, .nil⟩
  | cons x l ih =>
    rw [List.foldlM_cons] at h
    obtain ⟨c, ρ, hc, h⟩ := Planning.run_bind_ok h
    obtain ⟨m, hm, hq⟩ := hF acc x c σ ρ (by simp) hc
    obtain ⟨ms, hr, hms⟩ := ih h fun acc y d ρ ρ' hy => hF acc y d ρ ρ' (by simp [hy])
    exact ⟨m :: ms, by simp [hr, hm], .cons hq hms⟩

theorem splitRuns_ne_nil (runs max : Nat) (strategy : SplitStrategy) :
    splitRuns runs max strategy ≠ [] := by
  unfold splitRuns
  dsimp only
  by_cases hle : runs ≤ Nat.max max 1
  · simp [hle]
  · have hone : 1 ≤ Nat.max max 1 := Nat.le_max_right _ _
    have hjobs : 0 < Count.divCeil runs (Nat.max max 1) := Nat.div_pos (by omega) (by omega)
    cases strategy <;> simp [hle] <;> omega

theorem splitStep_ident {step : Step} {parts : List Nat} {σ τ : IdSupply} {members : List Step}
    (hparts : parts ≠ []) (h : (Scheduler.splitStep step parts).run σ = .ok (members, τ)) :
    ∃ m ∈ members, m.ident = step.ident := by
  unfold Scheduler.splitStep at h
  obtain ⟨group, ρ, -, h⟩ := Planning.run_bind_ok h
  obtain ⟨⟨acc, assigned⟩, ρ', hfold, h⟩ := Planning.run_bind_ok h
  cases h
  obtain ⟨ms, hacc, hms⟩ := foldlM_prepend (fun (x : Nat × Nat) (m : Step) =>
    m.recipe = step.recipe ∧ m.activity = step.activity ∧ (x.2 = 0 → m.id = step.id)) hfold
    (fun acc x c ρ ρ' _ hx => by
      obtain ⟨members, assigned⟩ := acc
      obtain ⟨runs, index⟩ := x
      dsimp only at hx
      split at hx
      · rename_i h0
        obtain ⟨id, ρ1, hid, hx⟩ := Planning.run_bind_ok hx
        cases hid
        split at hx
        on_goal 2 => obtain ⟨made, ρ2, -, hx⟩ := Planning.run_bind_ok hx
        all_goals
          obtain ⟨q, ρ3, -, hx⟩ := Planning.run_bind_ok hx
          cases hx
          exact ⟨_, rfl, rfl, rfl, fun _ => rfl⟩
      · rename_i h0
        obtain ⟨id, ρ1, -, hx⟩ := Planning.run_bind_ok hx
        split at hx
        on_goal 2 => obtain ⟨made, ρ2, -, hx⟩ := Planning.run_bind_ok hx
        all_goals
          obtain ⟨q, ρ3, -, hx⟩ := Planning.run_bind_ok hx
          cases hx
          exact ⟨_, rfl, rfl, rfl, fun h => absurd (by simpa using h) h0⟩)
  obtain ⟨p, ps, rfl⟩ := List.exists_cons_of_ne_nil hparts
  rw [List.zipIdx_cons] at hms
  obtain ⟨m, ms', ⟨hr, ha, hi⟩, -, rfl⟩ := List.forall₂_cons_left_iff.1 hms
  have hrev : acc.reverse = m :: ms' := by simpa using congrArg List.reverse hacc
  exact ⟨m, by simp [hrev], by simp [ident, hr, ha, hi rfl]⟩

theorem map_ident_of_forall₂ {steps steps' : List Step}
    (h : List.Forall₂ (fun x y : Step => y.ident = x.ident) steps steps') :
    steps'.map ident = steps.map ident := by
  induction h with
  | nil => rfl
  | cons hxy _ ih => simp [hxy, ih]

theorem attachDurations_ident {s : Scheduler} {steps steps' : List Step} {book : RecipeBook}
    (h : s.attachDurations steps book = .ok steps') : steps'.map ident = steps.map ident := by
  unfold Scheduler.attachDurations at h
  refine map_ident_of_forall₂ (mapM_forall₂ _ h fun x y _ hx => ?_)
  split at hx
  · cases hx; rfl
  · obtain ⟨d, -, hx⟩ := ok_of_bind hx
    cases hx; rfl

/-- Splitting keeps every step, as the first member of its group if it is split. -/
theorem splitExcept_ident {s : Scheduler} {steps steps' : List Step} {keep : List Ident}
    {σ τ : IdSupply} (h : (s.splitExcept steps keep).run σ = .ok (steps', τ)) :
    ∀ x ∈ steps, ∃ y ∈ steps', y.ident = x.ident := by
  unfold Scheduler.splitExcept at h
  split at h
  · cases h; exact fun x hx => ⟨x, hx, rfl⟩
  · rw [StateT.run_map] at h
    obtain ⟨⟨groups, τ'⟩, hm, he⟩ := ok_of_map h
    cases he
    have hrel := Planning.mapM_forall₂ (fun (x : Step) (ys : List Step) => ∃ y ∈ ys, y.ident = x.ident) hm
      fun x ys ρ ρ' _ hx => by
        split at hx
        · exact splitStep_ident (splitRuns_ne_nil _ _ _) hx
        · cases hx; exact ⟨x, by simp, rfl⟩
    intro x hx
    obtain ⟨ys, hys, y, hy, hident⟩ := exists_of_forall₂ hrel hx
    exact ⟨y, List.mem_flatten.2 ⟨ys, hys, hy⟩, hident⟩

end Step

end Fabrication
