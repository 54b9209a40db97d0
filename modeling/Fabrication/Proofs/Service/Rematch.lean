import Fabrication.Proofs.Service.JobClaims
import Fabrication.Proofs.Step.Reassign
import Fabrication.Proofs.Matching.Again

/-!
# Matching jobs again

A matching pass changes a plan in two ways only: it adapts the runs of a step to the runs of
its jobs, and it moves a step or a split group to the facility its latest job ran in.

A pass that moved no step is settled. Matching the same jobs right after it succeeds again,
adapts and corrects nothing, keeps every plan's steps as the first pass committed them, and
commits for every plan the same job matches, perhaps in another order
(`matchJobs_again_settles`). Every step the first pass matched was given the runs of its jobs
and pinned through the recalculation, and asked for those runs the selection takes the same
jobs (`matchPlan_again`); the plans before it claimed the same jobs, so every step finds the
pool it found before. A pass that changed nothing at all is a fixed point of the service: the
repeat answers the same outcomes and leaves the service as it is
(`matchJobs_again_of_unchanged`).

A pass that does move a step is not settled this way. The move makes the jobs of the step's
old facility drift in their turn, and the latest of them moves the step back
(`matchJobs_again_moves_back`).
-/

namespace Fabrication

section Pass

variable {config : EngineConfig} {plan : Ident} {world : World} {scope : MatchScope}

/-- Matching a step either leaves the steps and the adapted set as they were, or adapts the
step and reports it as adapted. -/
theorem matchStep_adapts {st st' : MatchState} {index : Nat}
    (h : matchStep config plan world scope st index = .ok st') :
    (st'.steps = st.steps ∧ st'.adapted = st.adapted) ∨
      st'.adapted = Ident.insertSorted (Step.stepAt st.steps index).id st.adapted := by
  unfold matchStep at h
  dsimp only at h
  split at h
  · cases h
    exact .inl ⟨rfl, rfl⟩
  split at h
  · cases h
    exact .inl ⟨rfl, rfl⟩
  obtain ⟨matched, -, h⟩ := ok_of_bind h
  generalize hr : List.foldl _ st _ = r at h
  have hkeep : r.steps = st.steps ∧ r.adapted = st.adapted := by
    subst hr
    refine foldl_invariant (fun r : MatchState => r.steps = st.steps ∧ r.adapted = st.adapted)
      ⟨rfl, rfl⟩ fun r j _ hr => ?_
    split
    · split
      · exact hr
      · exact hr
    · exact hr
  split at h <;> cases h
  · exact .inr (by rw [← hkeep.2]; rfl)
  · exact .inl hkeep

/-- A facility correction either leaves the steps and the corrected set as they were, or
reports a step under its key as corrected. -/
theorem applyCorrection_moves {res : Resolver} {user : Nat}
    {acc acc' : List Step × List Ident × List String} {entry : Ident × Correction}
    (h : applyCorrection res user acc entry = .ok acc') :
    (acc'.1 = acc.1 ∧ acc'.2.1 = acc.2.1) ∨ ∃ s ∈ acc.1, underKey entry.1 s ∧ s.id ∈ acc'.2.1 := by
  obtain ⟨steps, corrected, messages⟩ := acc
  obtain ⟨key, c⟩ := entry
  unfold applyCorrection at h
  dsimp only at h
  split at h
  · cases h
    exact .inl ⟨rfl, rfl⟩
  rename_i head hhead
  split at h
  · cases h
    exact .inl ⟨rfl, rfl⟩
  · cases h
  · cases h
    obtain ⟨hmem, hunder⟩ : head ∈ steps ∧ underKey key head = true :=
      ⟨List.mem_of_find?_eq_some hhead, List.find?_some hhead⟩
    refine .inr ⟨head, hmem, hunder, (Ident.mem_foldl_insertSorted _ _).2 (.inr ?_)⟩
    exact ⟨head, List.mem_filter.2 ⟨hmem, hunder⟩, rfl⟩

/-- Matching a plan answers an outcome for the plan, and one that changed nothing (no step
adapted or corrected) carries the plan's steps untouched. -/
theorem matchPlan_unchanged {plan : Plan} {book : RecipeBook} {claimed claimed' : List Nat}
    {res : Resolver} {o : MatchOutcome}
    (h : matchPlan config plan book scope claimed world res = .ok (o, claimed')) :
    o.plan = plan.id ∧ (o.planChanged = false → o.steps = plan.steps) := by
  unfold matchPlan at h
  obtain ⟨st, hst, h⟩ := ok_of_bind h
  have hpass : st.adapted = [] → st.steps = plan.steps := by
    refine foldlM_invariant (fun st : MatchState => st.adapted = [] → st.steps = plan.steps)
      (ok_of_ofFault hst) (fun _ => rfl) fun st i st' _ hI hstep hnil => ?_
    rcases matchStep_adapts hstep with ⟨hsteps, hadapted⟩ | hadapted
    · rw [hsteps]
      exact hI (hadapted ▸ hnil)
    · exact absurd (hnil ▸ hadapted ▸ Ident.mem_insertSorted.2 (.inl rfl)) List.not_mem_nil
  obtain ⟨⟨steps, corrected, messages⟩, hc, h⟩ := ok_of_bind h
  have hcorr : corrected = [] → steps = st.steps := by
    refine foldlM_invariant (fun acc : List Step × List Ident × List String =>
        acc.2.1 = [] → acc.1 = st.steps) hc (fun _ => rfl) fun acc e acc' _ hI hstep hnil => ?_
    rcases applyCorrection_moves hstep with ⟨hsteps, hcorrected⟩ | ⟨_, _, _, hmem⟩
    · rw [hsteps]
      exact hI (hcorrected ▸ hnil)
    · exact absurd (hnil ▸ hmem) List.not_mem_nil
  dsimp only at h
  split at h
  · rename_i hempty
    cases h
    refine ⟨rfl, fun _ => ?_⟩
    simp only [Bool.and_eq_true, List.isEmpty_iff] at hempty
    rw [hcorr hempty.2, hpass hempty.1]
  · rename_i hchanged
    obtain ⟨recalc, -, h⟩ := ok_of_bind h
    cases h
    refine ⟨rfl, fun hunchanged => absurd ?_ hchanged⟩
    simp only [MatchOutcome.planChanged, Bool.or_eq_false_iff, Bool.not_eq_false'] at hunchanged
    rw [hunchanged.1.1, hunchanged.1.2]
    rfl

end Pass

/-- An outcome `o'` of matching again that confirms an outcome `o` of the pass before: the same
plan and steps, nothing adapted or corrected, and the same job matches up to order. -/
structure MatchOutcome.Confirms (o' o : MatchOutcome) : Prop where
  plan : o'.plan = o.plan
  steps : o'.steps = o.steps
  adapted : o'.adapted = []
  corrected : o'.corrected = []
  assignments : o'.assignments.Perm o.assignments

namespace PlanStore

/-- Rewriting plans but for their owners, creation times and identifiers rewrites each user's
list of plans in place. -/
theorem plansForUser_map {s s' : PlanStore} {user : Nat} {f : Plan → Plan}
    (hf : ∀ p, (f p).owner = p.owner ∧ (f p).created = p.created ∧ (f p).id = p.id)
    (h : s'.plans = s.plans.map f) : s'.plansForUser user = (s.plansForUser user).map f := by
  have howner : ∀ p, (f p).owner = p.owner := fun p => (hf p).1
  have hcreated : ∀ p, (f p).created = p.created := fun p => (hf p).2.1
  have hid : ∀ p, (f p).id = p.id := fun p => (hf p).2.2
  unfold plansForUser
  rw [h, List.filter_map, sortBy_map]
  simp only [Function.comp_def, howner, hcreated, hid]

end PlanStore

namespace Service

variable {s t : Service}

/-- One round of matching a user's plans: the plan is matched after the jobs the rounds before
it claimed, and its outcome is appended. -/
def matchRound (s : Service) (scope : MatchScope) (acc : List MatchOutcome × List Nat)
    (plan : Plan) : Outcome (List MatchOutcome × List Nat) := do
  let (o, claimed) ← matchPlan s.config plan (s.catalog.bookForSteps plan.steps).1 scope acc.2
    s.world s.resolver
  pure (acc.1 ++ [o], claimed)

theorem matchJobs_eq (scope : MatchScope) : matchJobs scope = (do
    let s ← get
    let (outcomes, _) ← ServiceOp.lift
      ((s.store.plansForUser scope.user).foldlM (matchRound s scope) ([], []))
    write (PlanStore.commitMatchingAll (outcomes.map commitOf))
    pure outcomes : ServiceOp (List MatchOutcome)) := rfl

/-- A successful matching of a user's jobs folds the rounds over the user's plans and commits
their outcomes. -/
theorem matchJobs_rounds {scope : MatchScope} {os : List MatchOutcome}
    (h : (matchJobs scope).run s = .ok os t) :
    ∃ claimed, (s.store.plansForUser scope.user).foldlM (matchRound s scope) ([], []) =
        .ok (os, claimed) ∧
      (PlanStore.commitMatchingAll (os.map commitOf)).run s.store = .ok () t.store ∧
      t = { s with store := t.store } := by
  rw [matchJobs_eq, EStateM.run_bind, EStateM.run_get] at h
  dsimp only at h
  obtain ⟨⟨outs, claimed⟩, s₁, hlift, h₁⟩ := EStateM.ok_of_bind h
  obtain ⟨hfold, rfl⟩ := ServiceOp.lift_ok hlift
  obtain ⟨_, s₂, hw, h₂⟩ := EStateM.ok_of_bind h₁
  obtain ⟨store, hcommit, rfl⟩ := write_ok hw
  cases h₂
  exact ⟨claimed, hfold, hcommit, rfl⟩

theorem matchJobs_of_rounds {scope : MatchScope} {os : List MatchOutcome} {claimed : List Nat}
    {store : PlanStore}
    (hfold : (s.store.plansForUser scope.user).foldlM (matchRound s scope) ([], []) = .ok (os, claimed))
    (hcommit : (PlanStore.commitMatchingAll (os.map commitOf)).run s.store = .ok () store) :
    (matchJobs scope).run s = .ok os { s with store } := by
  rw [matchJobs_eq, EStateM.run_bind, EStateM.run_get]
  dsimp only
  rw [hfold]
  simp only [ServiceOp.lift, EStateM.run_bind, EStateM.run_pure, run_write, hcommit]

theorem foldlM_matchRound_prefix {scope : MatchScope} {ps : List Plan}
    {acc r : List MatchOutcome × List Nat} (h : ps.foldlM (matchRound s scope) acc = .ok r) :
    ∃ os, r.1 = acc.1 ++ os := by
  obtain ⟨-, os, hos, -⟩ := foldlM_append (fun _ => True) (fun (_ : Plan) (_ : MatchOutcome) => True)
    h trivial fun acc p acc' _ _ hstep => by
      unfold matchRound at hstep
      obtain ⟨⟨o, claimed⟩, -, hstep⟩ := ok_of_bind hstep
      cases hstep
      exact ⟨trivial, o, rfl, trivial⟩
  exact ⟨os, hos⟩

/-- A successful matching of a user's jobs answers one outcome for each of the user's plans,
in order, carrying the plan's steps when it changed nothing, and commits all of them. -/
theorem matchJobs_outcomes {scope : MatchScope} {os : List MatchOutcome}
    (h : (matchJobs scope).run s = .ok os t) :
    List.Forall₂ (fun (p : Plan) (o : MatchOutcome) =>
        o.plan = p.id ∧ (o.planChanged = false → o.steps = p.steps))
      (s.store.plansForUser scope.user) os ∧
      (PlanStore.commitMatchingAll (os.map commitOf)).run s.store = .ok () t.store ∧
      t = { s with store := t.store } := by
  obtain ⟨claimed, hfold, hcommit, ht⟩ := matchJobs_rounds h
  obtain ⟨-, ys, hys, hrel⟩ := foldlM_append (fun _ => True)
    (fun (p : Plan) (o : MatchOutcome) => o.plan = p.id ∧ (o.planChanged = false → o.steps = p.steps))
    hfold trivial fun acc p acc' _ _ hstep => by
      unfold matchRound at hstep
      obtain ⟨⟨o, claimed'⟩, hmatch, hstep⟩ := ok_of_bind hstep
      cases hstep
      exact ⟨trivial, o, rfl, matchPlan_unchanged hmatch⟩
  simp only [List.nil_append] at hys
  subst hys
  exact ⟨hrel, hcommit, ht⟩

/-- The commits of a successful matching name distinct plans, when the store's plans are
distinct. -/
theorem matchJobs_commits_nodup {scope : MatchScope} {os : List MatchOutcome}
    (hids : (s.store.plans.map (·.id)).Nodup) (h : (matchJobs scope).run s = .ok os t) :
    ((os.map commitOf).map (·.plan)).Nodup := by
  obtain ⟨hrel, -, -⟩ := matchJobs_outcomes h
  have hmap : (s.store.plansForUser scope.user).map (·.id) = os.map (·.plan) :=
    map_eq_of_forall₂ (hrel.imp fun _ _ hr => hr.1.symm)
  rw [List.map_map]
  exact hmap ▸ PlanStore.plansForUser_ids_nodup hids

/-- Matching reads the store only through its plans: over a store with the same plans, a
matching that succeeded folds to the same outcomes and commits them there. -/
theorem matchJobs_of_plans {scope : MatchScope} {os : List MatchOutcome} {store store' : PlanStore}
    (h : (matchJobs scope).run s = .ok os t) (hplans : store.plans = s.store.plans)
    (hcommit : (PlanStore.commitMatchingAll (os.map commitOf)).run store = .ok () store') :
    (matchJobs scope).run { s with store } = .ok os { s with store := store' } := by
  obtain ⟨claimed, hfold, -, -⟩ := matchJobs_rounds h
  have hfold' : (store.plansForUser scope.user).foldlM (matchRound s scope) ([], []) =
      .ok (os, claimed) := by
    rw [PlanStore.plansForUser_of_plans hplans]
    exact hfold
  exact matchJobs_of_rounds hfold' hcommit

/-- Matching a user's jobs again, right after a pass that changed no plan (no step adapted or
corrected), answers the same outcomes and leaves the service as it is: the plans keep their
steps, and each keeps the job matches the first pass committed. Plan identifiers are distinct,
as in every store the service reaches. -/
theorem matchJobs_again_of_unchanged {scope : MatchScope} {os : List MatchOutcome}
    (hids : (s.store.plans.map (·.id)).Nodup) (h : (matchJobs scope).run s = .ok os t)
    (hunchanged : ∀ o ∈ os, o.planChanged = false) :
    t.store.plans = s.store.plans ∧ (matchJobs scope).run t = .ok os t := by
  obtain ⟨hrel, hcommit, ht⟩ := matchJobs_outcomes h
  have hnd := matchJobs_commits_nodup hids h
  have hsteps : ∀ c ∈ os.map commitOf, ∀ p ∈ s.store.plans, p.id = c.plan → p.steps = c.steps := by
    intro c hc p hp hpc
    obtain ⟨o, ho, rfl⟩ := List.mem_map.1 hc
    obtain ⟨q, hq, hqid, hqsteps⟩ := exists_of_forall₂_right hrel ho
    have hqs : q ∈ s.store.plans := (PlanStore.mem_plansForUser.1 hq).1
    rw [List.inj_on_of_nodup_map hids hp hqs (hpc.trans hqid)]
    exact (hqsteps (hunchanged o ho)).symm
  have hplans : t.store.plans = s.store.plans := PlanStore.commitMatchingAll_plans hsteps hcommit
  refine ⟨hplans, ?_⟩
  rw [ht]
  exact matchJobs_of_plans h hplans (PlanStore.commitMatchingAll_again hnd hcommit)

section Settles

variable (hpolicy : s.config.matchPolicy = .onAnyDifference)
  (hjobs : (s.world.jobs.map (·.id)).Nodup) (hpos : ∀ j ∈ s.world.jobs, 0 < j.runs)
include hpolicy hjobs hpos

/-- Rounds over plans whose first pass corrected nothing, matched again with their new steps
after the same claims, confirm the first pass plan by plan. -/
theorem foldlM_matchRound_again {scope : MatchScope} {f : Plan → Plan} :
    ∀ (ps : List Plan) (acc₁ r₁ acc₂ : List MatchOutcome × List Nat),
      (∀ p ∈ ps, (p.steps.map Step.id).Nodup ∧ ∀ u ∈ p.steps, passesByKind u = false → 0 < u.runs) →
      ps.foldlM (matchRound s scope) acc₁ = .ok r₁ →
      (∀ p ∈ ps, ∀ o ∈ r₁.1, o.plan = p.id → f p = { p with steps := o.steps } ∧ o.corrected = []) →
      (∀ x, x ∈ acc₂.2 ↔ x ∈ acc₁.2) →
      ∃ r₂ os₁ os₂, (ps.map f).foldlM (matchRound s scope) acc₂ = .ok r₂ ∧ r₁.1 = acc₁.1 ++ os₁ ∧
        r₂.1 = acc₂.1 ++ os₂ ∧ List.Forall₂ MatchOutcome.Confirms os₂ os₁
  | [], _, _, acc₂, _, h, _, _ => by
    cases h
    exact ⟨acc₂, [], [], rfl, by simp, by simp, .nil⟩
  | p :: ps, acc₁, r₁, acc₂, hps, h, hf, hclaims => by
    rw [List.foldlM_cons] at h
    obtain ⟨acc₁', h₁, h⟩ := ok_of_bind h
    unfold matchRound at h₁
    obtain ⟨⟨o, claimed⟩, hmatch, h₁⟩ := ok_of_bind h₁
    cases h₁
    obtain ⟨os, hos⟩ := foldlM_matchRound_prefix h
    have ho : o ∈ r₁.1 := by
      rw [hos]
      simp
    have hplan : o.plan = p.id := (matchPlan_unchanged hmatch).1
    obtain ⟨hfp, hcorr⟩ := hf p List.mem_cons_self o ho hplan
    obtain ⟨hids, hruns⟩ := hps p List.mem_cons_self
    obtain ⟨o₂, claimed₂, hmatch₂, hplan₂, hsteps₂, hadapted₂, hcorrected₂, hassign₂, hclaims₂⟩ :=
      matchPlan_again hpolicy hids hjobs hruns hpos hmatch hcorr hclaims
        (s.catalog.bookForSteps ({ p with steps := o.steps } : Plan).steps).1
    obtain ⟨r₂, os₁, os₂, hfold₂, hos₁, hos₂, hrel⟩ := foldlM_matchRound_again ps _ r₁
      (acc₂.1 ++ [o₂], claimed₂) (fun q hq => hps q (List.mem_cons_of_mem _ hq)) h
      (fun q hq => hf q (List.mem_cons_of_mem _ hq)) hclaims₂
    have hround : matchRound s scope acc₂ (f p) = .ok (acc₂.1 ++ [o₂], claimed₂) := by
      unfold matchRound
      rw [hfp, hmatch₂]
      rfl
    refine ⟨r₂, o :: os₁, o₂ :: os₂, ?_, by simp [hos₁], by simp [hos₂],
      .cons ⟨hplan₂.trans hplan.symm, hsteps₂, hadapted₂, hcorrected₂, hassign₂⟩ hrel⟩
    rw [List.map_cons, List.foldlM_cons, hround]
    exact hfold₂

/-- Matching a user's jobs again, right after a pass that moved no step to another facility,
confirms it: the repeat succeeds, adapts and corrects nothing, and commits every plan's steps as
they are and its job matches up to order. Plan identifiers are distinct, as in every store the
service reaches; the steps of each plan have distinct identifiers, and each step matching looks
at (not bought, not a copy, matched automatically) has a run; adapting follows any difference;
and the jobs have distinct identifiers and runs. -/
theorem matchJobs_again_settles {scope : MatchScope} {os : List MatchOutcome}
    (hids : (s.store.plans.map (·.id)).Nodup)
    (hplans : ∀ p ∈ s.store.plansForUser scope.user,
      (p.steps.map Step.id).Nodup ∧ ∀ u ∈ p.steps, passesByKind u = false → 0 < u.runs)
    (h : (matchJobs scope).run s = .ok os t) (hcorr : ∀ o ∈ os, o.corrected = []) :
    ∃ os' t', (matchJobs scope).run t = .ok os' t' ∧ List.Forall₂ MatchOutcome.Confirms os' os ∧
      t'.store.plans = t.store.plans ∧ ∀ x, (t'.store.jobMatchesOf x).Perm (t.store.jobMatchesOf x) := by
  obtain ⟨claimed, hfold, hcommit, ht⟩ := matchJobs_rounds h
  have hnd := matchJobs_commits_nodup hids h
  obtain ⟨hplans_t, -⟩ := PlanStore.commitMatchingAll_ok hnd hcommit
  -- the second pass meets each of the user's plans with the steps the first committed for it
  set f := fun p : Plan =>
    (((os.map commitOf).find? (·.plan == p.id)).map fun c => { p with steps := c.steps }).getD p
  have hkeep : ∀ p, (f p).owner = p.owner ∧ (f p).created = p.created ∧ (f p).id = p.id := by
    intro p
    simp only [f]
    cases (os.map commitOf).find? (·.plan == p.id) <;> exact ⟨rfl, rfl, rfl⟩
  have hfor : ∀ p ∈ s.store.plansForUser scope.user, ∀ o ∈ os, o.plan = p.id →
      f p = { p with steps := o.steps } ∧ o.corrected = [] := by
    intro p _ o ho hop
    refine ⟨?_, hcorr o ho⟩
    have hfind := PlanStore.find?_plan_of_mem hnd (List.mem_map_of_mem (f := commitOf) ho)
    rw [show (commitOf o).plan = p.id from hop] at hfind
    simp only [f, hfind]
    rfl
  obtain ⟨⟨os₂, claimed₂⟩, os₁, os', hfold₂, hos₁, hos₂, hconfirms⟩ :=
    foldlM_matchRound_again hpolicy hjobs hpos _ ([], []) (os, claimed) ([], []) hplans hfold hfor
      fun _ => Iff.rfl
  simp only [List.nil_append] at hos₁ hos₂
  subst hos₁ hos₂
  have hrel : List.Forall₂ (fun c' c => c'.plan = c.plan ∧ c'.steps = c.steps ∧
      c'.assignments.Perm c.assignments) (os₂.map commitOf) (os.map commitOf) :=
    List.forall₂_map_left_iff.2 (List.forall₂_map_right_iff.2
      (hconfirms.imp fun _ _ hc => ⟨hc.plan, hc.steps, hc.assignments⟩))
  obtain ⟨store', hcommit₂, hplans', hmatches'⟩ := PlanStore.commitMatchingAll_again_perm hnd hrel hcommit
  have hround : matchRound t scope = matchRound s scope := by
    rw [ht]
    rfl
  have hfold₂' : (t.store.plansForUser scope.user).foldlM (matchRound t scope) ([], []) =
      .ok (os₂, claimed₂) := by
    rw [hround, PlanStore.plansForUser_map hkeep hplans_t]
    exact hfold₂
  exact ⟨os₂, { t with store := store' }, matchJobs_of_rounds hfold₂' hcommit₂, hconfirms, hplans',
    hmatches'⟩

end Settles

/-- A Build facility without bonuses. -/
def buildFacility (id : Nat) : Facility := ⟨id, "", [⟨.build, none, Decimal.zero, Decimal.zero⟩]⟩

/-- Recipe `1` builds product `1` from one unit of `2`, and user `1` has the Build facility `10`,
where three jobs of the recipe ran: job `1` of two runs, started at `1`; job `2` of five runs,
started at `2`; job `3` of one run, started at `3`. -/
def threeJobs : Service where
  resolver := ({} : Resolver).insert 1 (Registry.ofList [buildFacility 10])
  world :=
    { recipes := [⟨1, .build, [⟨2, 1⟩], [⟨1, 1⟩], 0⟩],
      jobs := [{ id := 1, recipe := 1, runs := 2, started := 1, facility := some 10 },
               { id := 2, recipe := 1, runs := 5, started := 2, facility := some 10 },
               { id := 3, recipe := 1, runs := 1, started := 3, facility := some 10 }] }

/-- Plan `7` of user `1`: four units of product `1`. -/
def fourUnits : Plan := { id := .given 7, targets := [{ material := 1, quantity := 4 }] }

/-- Asked for four runs, the first pass takes job `1`, passes job `2` over, takes job `3` and
then job `2` for the run still missing, and adapts the step to eight runs. Asked for eight, the
second pass takes the jobs in order of start: it confirms the first, with its matches in another
order. -/
theorem matchJobs_again_settles_reordered :
    ∃ c s os t, (createPlan fourUnits []).run threeJobs = .ok c s ∧ (matchJobs {}).run s = .ok os t ∧
      os.map (·.adapted) = [[.fresh 0]] ∧
      ∃ os' t', (matchJobs {}).run t = .ok os' t' ∧ List.Forall₂ MatchOutcome.Confirms os' os ∧
        os'.map (·.assignments) ≠ os.map (·.assignments) ∧ t'.store.plans = t.store.plans ∧
        ∀ x, (t'.store.jobMatchesOf x).Perm (t.store.jobMatchesOf x) := by
  obtain ⟨c, s, hcreate, hp⟩ := EStateM.exists_ok_of_check
    (r := (createPlan fourUnits []).run threeJobs)
    (p := fun _ s => decide (s.config.matchPolicy = .onAnyDifference ∧
        (s.world.jobs.map (·.id)).Nodup ∧ (∀ j ∈ s.world.jobs, 0 < j.runs) ∧
        (s.store.plans.map (·.id)).Nodup ∧ ∀ p ∈ s.store.plansForUser 1,
          (p.steps.map Step.id).Nodup ∧ ∀ u ∈ p.steps, passesByKind u = false → 0 < u.runs) &&
      match (matchJobs {}).run s with
      | .ok os t => os.all (·.corrected.isEmpty) && os.map (·.adapted) == [[.fresh 0]] &&
          match (matchJobs {}).run t with
          | .ok os' _ => os'.map (·.assignments) != os.map (·.assignments)
          | .error _ _ => false
      | .error _ _ => false) (by decide +kernel)
  rw [Bool.and_eq_true, decide_eq_true_iff] at hp
  obtain ⟨⟨hpolicy, hjobs, hpos, hids, hplans⟩, hp⟩ := hp
  cases hfirst : (matchJobs {}).run s with
  | error e t =>
    rw [hfirst] at hp
    cases hp
  | ok os t =>
    rw [hfirst] at hp
    simp only [Bool.and_eq_true, List.all_eq_true, List.isEmpty_iff, beq_iff_eq] at hp
    obtain ⟨⟨hcorr, hadapted⟩, hp⟩ := hp
    obtain ⟨os', t', hsecond, hconfirms, hplans', hmatches'⟩ :=
      matchJobs_again_settles hpolicy hjobs hpos hids hplans hfirst hcorr
    rw [hsecond] at hp
    exact ⟨c, s, os, t, hcreate, hfirst, hadapted, os', t', hsecond, hconfirms,
      by simpa using hp, hplans', hmatches'⟩

/-- Recipe `1` builds product `1` from one unit of `2`, and user `1` has the Build facilities
`10` and `20`. Two one-run jobs of the recipe ran: job `1`, started at `1`, in facility `10`,
and job `2`, started at `2`, in facility `second`. -/
def twoJobs (second : Nat) : Service where
  resolver := ({} : Resolver).insert 1 (Registry.ofList [buildFacility 10, buildFacility 20])
  world :=
    { recipes := [⟨1, .build, [⟨2, 1⟩], [⟨1, 1⟩], 0⟩],
      jobs := [{ id := 1, recipe := 1, runs := 1, started := 1, facility := some 10 },
               { id := 2, recipe := 1, runs := 1, started := 2, facility := some second }] }

/-- Plan `7` of user `1`: two units of product `1`. -/
def twoUnits : Plan := { id := .given 7, targets := [{ material := 1, quantity := 2 }] }

/-- With the second, later job in facility `20`, the first pass moves the plan's step from
`10` to `20` and reports it corrected; matching again finds the first job drifting, moves the
step back to `10` and reports it corrected again. -/
theorem matchJobs_again_moves_back :
    ∃ c s os t os' t', (createPlan twoUnits []).run (twoJobs 20) = .ok c s ∧
      (matchJobs {}).run s = .ok os t ∧ (matchJobs {}).run t = .ok os' t' ∧
      os.map (·.corrected) = [[.fresh 0]] ∧ os'.map (·.corrected) = [[.fresh 0]] ∧
      (t.store.plans.flatMap (·.steps)).map (·.facility) = [some 20] ∧
      (t'.store.plans.flatMap (·.steps)).map (·.facility) = [some 10] := by
  obtain ⟨c, s, hcreate, hp⟩ := EStateM.exists_ok_of_check
    (r := (createPlan twoUnits []).run (twoJobs 20))
    (p := fun _ s => match (matchJobs {}).run s with
      | .ok os t => (os.map (·.corrected) == [[.fresh 0]]) &&
          ((t.store.plans.flatMap (·.steps)).map (·.facility) == [some 20]) &&
          match (matchJobs {}).run t with
          | .ok os' t' => (os'.map (·.corrected) == [[.fresh 0]]) &&
              ((t'.store.plans.flatMap (·.steps)).map (·.facility) == [some 10])
          | .error _ _ => false
      | .error _ _ => false) (by decide +kernel)
  cases hfirst : (matchJobs {}).run s with
  | error e t =>
    rw [hfirst] at hp
    cases hp
  | ok os t =>
    rw [hfirst] at hp
    simp only [Bool.and_eq_true, beq_iff_eq] at hp
    obtain ⟨⟨hcorr, hfac⟩, hp⟩ := hp
    cases hsecond : (matchJobs {}).run t with
    | error e t' =>
      rw [hsecond] at hp
      cases hp
    | ok os' t' =>
      rw [hsecond] at hp
      simp only [Bool.and_eq_true, beq_iff_eq] at hp
      exact ⟨c, s, os, t, os', t', hcreate, hfirst, hsecond, hcorr, hp.1, hfac, hp.2⟩

end Service

end Fabrication
