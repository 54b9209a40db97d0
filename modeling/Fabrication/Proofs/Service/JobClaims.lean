import Fabrication.Proofs.Store.JobClaims
import Fabrication.Proofs.Service.Operations

/-!
# The plan service claims each job once

Each successful operation of the service is read back as the one store write it makes
(`createPlan_ok`, `updateStep_ok`, `deletePlan_ok`, `matchJobs_ok`, `matchPlanJobs_ok`,
`computeProfit_ok`), and each write keeps `PlanStore.ClaimsSound` over the jobs of the world,
which no operation changes; a failed operation leaves the store it found. Matching all of a user's plans is a round in which each plan is matched against the
jobs the earlier plans claimed (`RoundSound`); matching one plan leaves out the jobs the
owner's other plans claim. By induction over the requests, every store a run reaches from an
empty one claims each job once (`run_claimsOnce`).
-/

namespace Fabrication

namespace Service

variable {s t : Service}

/-- Updating a step commits new steps for a stored plan that keep every step identity the
plan had: edits, recalculation and durations keep them, and splitting keeps each step as the
first member of its group. -/
theorem updateStep_ok {planId stepId : Ident} {edit : StepEdit} {operators : List Nat}
    {r : Recalculation} (h : (updateStep planId stepId edit operators).run s = .ok r t) :
    t.world = s.world ∧ ∃ plan ∈ s.store.plans, plan.id = planId ∧ ∃ steps : List Step,
      (∀ x ∈ plan.steps.map Step.ident, x ∈ steps.map Step.ident) ∧
      (PlanStore.commitRecalculation planId steps).run s.store = .ok () t.store := by
  unfold updateStep at h
  rw [EStateM.run_bind, EStateM.run_get] at h
  dsimp only at h
  obtain ⟨plan, s₁, hplan, h₁⟩ := EStateM.ok_of_bind h
  obtain ⟨hplan, rfl⟩ := ServiceOp.lift_ok hplan
  obtain ⟨edited, s₂, hedit, h₂⟩ := EStateM.ok_of_bind h₁
  obtain ⟨hedit, rfl⟩ := ServiceOp.lift_ok hedit
  obtain ⟨pinned, s₃, hpinned, h₃⟩ := EStateM.ok_of_bind h₂
  obtain ⟨-, rfl⟩ := ServiceOp.lift_ok hpinned
  obtain ⟨recalc, s₄, hrecalc, h₄⟩ := EStateM.ok_of_bind h₃
  obtain ⟨hrecalc, rfl⟩ := ServiceOp.lift_ok hrecalc
  obtain ⟨sched, s₅, hsched, h₅⟩ := EStateM.ok_of_bind h₄
  obtain ⟨-, rfl⟩ := ServiceOp.lift_ok hsched
  obtain ⟨timed, s₆, htimed, h₆⟩ := EStateM.ok_of_bind h₅
  obtain ⟨htimed, rfl⟩ := ServiceOp.lift_ok htimed
  obtain ⟨split, s₇, hsplit, h₇⟩ := EStateM.ok_of_bind h₆
  obtain ⟨hsplit, rfl⟩ := ServiceOp.lift_ok hsplit
  obtain ⟨_, s₈, hmod, h₈⟩ := EStateM.ok_of_bind h₇
  cases hmod
  obtain ⟨_, s₉, hw, h₉⟩ := EStateM.ok_of_bind h₈
  obtain ⟨store, hcommit, rfl⟩ := write_ok hw
  cases h₉
  obtain ⟨hmem, hid⟩ := PlanStore.loadPlan_ok (ok_of_ofPlan hplan)
  have hsame : timed.map Step.ident = plan.steps.map Step.ident := by
    rw [Step.attachDurations_ident (ok_of_ofFault htimed),
      Step.recalculate_ident (ok_of_ofFault hrecalc), Step.applyEdit_ident hedit]
  refine ⟨rfl, plan, hmem, hid, split.1, ?_, hcommit⟩
  intro x hx
  rw [← hsame, List.mem_map] at hx
  obtain ⟨y, hy, rfl⟩ := hx
  obtain ⟨z, hz, hzy⟩ := Step.splitExcept_ident hsplit y hy
  exact List.mem_map.2 ⟨z, hz, hzy⟩

/-- The outcomes of a matching round so far, against the jobs claimed so far: every matched
job is claimed, and outcomes for different plans share no job. -/
structure RoundSound (outs : List MatchOutcome) (claimed : List Nat) : Prop where
  claims : ∀ o ∈ outs, ∀ m ∈ o.assignments, m.job ∈ claimed
  disjoint : ∀ o ∈ outs, ∀ o' ∈ outs, o.plan ≠ o'.plan →
    ∀ m ∈ o.assignments, ∀ m' ∈ o'.assignments, m.job ≠ m'.job

/-- A plan matched against the jobs claimed so far extends a sound round: its jobs are
claimed by no earlier outcome. -/
theorem RoundSound.append {outs : List MatchOutcome} {claimed claimed' : List Nat}
    {o : MatchOutcome} {jobs : List Job} {plan : Plan} (h : RoundSound outs claimed)
    (hs : MatchOutcome.Sound jobs plan claimed claimed' o) : RoundSound (outs ++ [o]) claimed' := by
  have hmem : ∀ o₁ ∈ outs ++ [o], o₁ ∈ outs ∨ o₁ = o := by simp
  refine ⟨fun o₁ ho₁ m hm => ?_, fun o₁ ho₁ o₂ ho₂ hne m hm m' hm' => ?_⟩
  · rcases hmem o₁ ho₁ with ho₁ | rfl
    · exact hs.grows _ (h.claims o₁ ho₁ m hm)
    · exact hs.claims m hm
  · rcases hmem o₁ ho₁ with hold₁ | rfl <;> rcases hmem o₂ ho₂ with hold₂ | rfl
    · exact h.disjoint o₁ hold₁ o₂ hold₂ hne m hm m' hm'
    · exact fun heq => hs.fresh m' hm' (heq ▸ h.claims o₁ hold₁ m hm)
    · exact fun heq => hs.fresh m hm (heq ▸ h.claims o₂ hold₂ m' hm')
    · exact absurd rfl hne

/-- Matching a user's jobs commits one outcome for each of the user's plans, in order: each
outcome is for its plan, with distinct jobs grounded in its steps, and outcomes for different
plans share no job. -/
theorem matchJobs_ok {scope : MatchScope} {os : List MatchOutcome}
    (hjobs : (s.world.jobs.map (·.id)).Nodup) (h : (matchJobs scope).run s = .ok os t) :
    t.world = s.world ∧ ∃ outs, List.Forall₂ (fun (p : Plan) (o : MatchOutcome) => o.plan = p.id ∧
        (o.assignments.map (·.job)).Nodup ∧
        ∀ m ∈ o.assignments, m.Grounded s.world.jobs (o.steps.map Step.ident))
      (s.store.plansForUser scope.user) outs ∧
      (∀ o ∈ outs, ∀ o' ∈ outs, o.plan ≠ o'.plan →
        ∀ m ∈ o.assignments, ∀ m' ∈ o'.assignments, m.job ≠ m'.job) ∧
      (PlanStore.commitMatchingAll (outs.map commitOf)).run s.store = .ok () t.store := by
  unfold matchJobs at h
  rw [EStateM.run_bind, EStateM.run_get] at h
  dsimp only at h
  obtain ⟨⟨outs, claimed⟩, s₁, hfold, h₁⟩ := EStateM.ok_of_bind h
  obtain ⟨hfold, rfl⟩ := ServiceOp.lift_ok hfold
  obtain ⟨_, s₂, hw, h₂⟩ := EStateM.ok_of_bind h₁
  obtain ⟨store, hcommit, rfl⟩ := write_ok hw
  cases h₂
  -- each plan adds its outcome, matched against the jobs the earlier plans claimed
  obtain ⟨hround, ys, hys, hrel⟩ := foldlM_append (fun acc => RoundSound acc.1 acc.2)
    (fun (p : Plan) (o : MatchOutcome) => o.plan = p.id ∧ (o.assignments.map (·.job)).Nodup ∧
      ∀ m ∈ o.assignments, m.Grounded s₁.world.jobs (o.steps.map Step.ident))
    hfold ⟨by simp, by simp⟩ fun acc p acc' _ hI hstep => by
      obtain ⟨⟨o, claimed'⟩, hmatch, hstep⟩ := ok_of_bind hstep
      cases hstep
      have hs := matchPlan_sound hjobs hmatch
      exact ⟨hI.append hs, o, rfl, hs.plan_eq, hs.distinct, hs.grounded⟩
  simp only [List.nil_append] at hys
  subst hys
  exact ⟨rfl, outs, hrel, hround.disjoint, hcommit⟩

/-- Matching one plan commits a sound outcome for a stored plan, matched against the jobs
that the owner's other plans claim. -/
theorem matchPlanJobs_ok {planId : Ident} {characters : List Nat} {since : Int}
    {o : MatchOutcome} (hjobs : (s.world.jobs.map (·.id)).Nodup)
    (h : (matchPlanJobs planId characters since).run s = .ok o t) :
    t.world = s.world ∧ ∃ plan ∈ s.store.plans, plan.id = planId ∧ ∃ claimed',
      MatchOutcome.Sound s.world.jobs plan (s.store.claimedJobs plan.owner (some planId)) claimed' o ∧
      (PlanStore.commitMatchingAll [commitOf o]).run s.store = .ok () t.store := by
  unfold matchPlanJobs at h
  rw [EStateM.run_bind, EStateM.run_get] at h
  dsimp only at h
  obtain ⟨plan, s₁, hplan, h₁⟩ := EStateM.ok_of_bind h
  obtain ⟨hplan, rfl⟩ := ServiceOp.lift_ok hplan
  obtain ⟨⟨o', claimed'⟩, s₂, hmatch, h₂⟩ := EStateM.ok_of_bind h₁
  obtain ⟨hmatch, rfl⟩ := ServiceOp.lift_ok hmatch
  obtain ⟨_, s₃, hw, h₃⟩ := EStateM.ok_of_bind h₂
  obtain ⟨store, hcommit, rfl⟩ := write_ok hw
  cases h₃
  obtain ⟨hmem, hid⟩ := PlanStore.loadPlan_ok (ok_of_ofPlan hplan)
  exact ⟨rfl, plan, hmem, hid, claimed', matchPlan_sound hjobs hmatch, hcommit⟩

section Claims

/-- Creating a plan keeps claims sound: the saved plan has no matches, and the others keep
theirs. -/
theorem claimsSound_createPlan {plan : Plan} {operators : List Nat} {c : Calculation}
    (h : (createPlan plan operators).run s = .ok c t) (hs : s.store.ClaimsSound s.world.jobs) :
    t.world = s.world ∧ t.store.ClaimsSound s.world.jobs := by
  obtain ⟨hw, p, hsave⟩ := createPlan_ok h
  obtain ⟨-, hmatch⟩ := PlanStore.savePlan_ok hsave
  refine ⟨hw, hs.frame (PlanStore.savePlan_ids_nodup hsave hs.ids) fun q' hq' => ?_⟩
  rcases (PlanStore.mem_savePlan hsave).1 hq' with rfl | ⟨hq, hne⟩
  · left
    rw [hmatch, if_pos rfl]
  · right
    exact ⟨q', hq, rfl, rfl, fun x hx => hx, by rw [hmatch, if_neg hne]⟩

/-- Updating a step keeps claims sound: the matches stay, and the plan's new steps keep every
step identity its matches name. -/
theorem claimsSound_updateStep {planId stepId : Ident} {edit : StepEdit} {operators : List Nat}
    {r : Recalculation} (h : (updateStep planId stepId edit operators).run s = .ok r t)
    (hs : s.store.ClaimsSound s.world.jobs) :
    t.world = s.world ∧ t.store.ClaimsSound s.world.jobs := by
  obtain ⟨hw, plan, hplan, hid, steps, hsub, hcommit⟩ := updateStep_ok h
  obtain ⟨hplans, hmatches⟩ := PlanStore.commitRecalculation_ok hcommit
  have hids : t.store.plans.map (·.id) = s.store.plans.map (·.id) := by
    rw [hplans, List.map_map]
    apply List.map_congr_left
    intro q _
    simp only [Function.comp_apply]
    split <;> rfl
  refine ⟨hw, hs.frame (hids ▸ hs.ids) fun q' hq' => .inr ?_⟩
  rw [hplans, List.mem_map] at hq'
  obtain ⟨q, hq, rfl⟩ := hq'
  by_cases hqid : q.id = planId
  · -- the edited plan is the one loaded, since plan identifiers are distinct
    obtain rfl : q = plan := List.inj_on_of_nodup_map hs.ids hq hplan (hqid.trans hid.symm)
    rw [if_pos (beq_iff_eq.2 hqid)]
    exact ⟨q, hq, rfl, rfl, hsub, by rw [PlanStore.jobMatchesOf_of_jobMatches hmatches]⟩
  · rw [if_neg (by simpa using hqid)]
    exact ⟨q, hq, rfl, rfl, fun x hx => hx, by rw [PlanStore.jobMatchesOf_of_jobMatches hmatches]⟩

/-- Deleting a plan keeps claims sound: the other plans keep their matches. -/
theorem claimsSound_deletePlan {planId : Ident} {u : Unit}
    (h : (deletePlan planId).run s = .ok u t) (hs : s.store.ClaimsSound s.world.jobs) :
    t.world = s.world ∧ t.store.ClaimsSound s.world.jobs := by
  obtain ⟨hw, hdel⟩ := deletePlan_ok h
  obtain ⟨hplans, hmatch⟩ := PlanStore.deletePlan_ok hdel
  have hids : (t.store.plans.map (·.id)).Nodup := by
    rw [hplans]
    exact hs.ids.sublist (List.filter_sublist.map _)
  refine ⟨hw, hs.frame hids fun q' hq' => .inr ?_⟩
  rw [hplans, List.mem_filter] at hq'
  obtain ⟨hq, hne⟩ := hq'
  have hne : q'.id ≠ planId := by simpa using hne
  exact ⟨q', hq, rfl, rfl, fun x hx => hx, by rw [hmatch, if_neg hne]⟩

/-- Computing profit writes profit matches only. -/
theorem claimsSound_computeProfit {req : ProfitRequest} {report : ProfitReport}
    (h : (computeProfit req).run s = .ok report t) (hs : s.store.ClaimsSound s.world.jobs) :
    t.world = s.world ∧ t.store.ClaimsSound s.world.jobs := by
  obtain ⟨-, hreplace, ht⟩ := computeProfit_ok h
  have hstore := PlanStore.replaceProfitMatches_ok hreplace
  have hplans : t.store.plans = s.store.plans := by rw [hstore]
  have hmatches : t.store.jobMatches = s.store.jobMatches := by rw [hstore]
  refine ⟨by rw [ht], hs.frame (hplans ▸ hs.ids) fun q' hq' => .inr ?_⟩
  rw [hplans] at hq'
  exact ⟨q', hq', rfl, rfl, fun x hx => hx, PlanStore.jobMatchesOf_of_jobMatches hmatches _⟩

/-- Matching a user's jobs keeps claims sound: every plan of the user gets an outcome of the
round, outcomes for different plans share no job, and plans of other owners keep their
matches. -/
theorem claimsSound_matchJobs {scope : MatchScope} {os : List MatchOutcome}
    (hjobs : (s.world.jobs.map (·.id)).Nodup) (h : (matchJobs scope).run s = .ok os t)
    (hs : s.store.ClaimsSound s.world.jobs) :
    t.world = s.world ∧ t.store.ClaimsSound s.world.jobs := by
  obtain ⟨hw, outs, hrel, hdisj, hcommit⟩ := matchJobs_ok hjobs h
  have hplanIds : (s.store.plansForUser scope.user).map (·.id) = outs.map (·.plan) :=
    map_eq_of_forall₂ (hrel.imp fun _ _ hr => hr.1.symm)
  have hnd : ((outs.map commitOf).map (·.plan)).Nodup := by
    rw [List.map_map]
    exact hplanIds ▸ PlanStore.plansForUser_ids_nodup hs.ids
  have hcommitOf : ∀ c ∈ outs.map commitOf, ∃ o ∈ outs, c = commitOf o := by
    intro c hc
    obtain ⟨o, ho, rfl⟩ := List.mem_map.1 hc
    exact ⟨o, ho, rfl⟩
  refine ⟨hw, hs.commit hnd hcommit ?_ ?_ ?_ ?_⟩
  · intro c hc
    obtain ⟨o, ho, rfl⟩ := hcommitOf c hc
    obtain ⟨p, -, -, hd, -⟩ := exists_of_forall₂_right hrel ho
    exact hd
  · intro c hc
    obtain ⟨o, ho, rfl⟩ := hcommitOf c hc
    obtain ⟨p, -, -, -, hg⟩ := exists_of_forall₂_right hrel ho
    exact hg
  · intro c hc c' hc' hne
    obtain ⟨o, ho, rfl⟩ := hcommitOf c hc
    obtain ⟨o', ho', rfl⟩ := hcommitOf c' hc'
    exact hdisj o ho o' ho' hne
  · intro c hc p hp hpc q hq hown hnone
    obtain ⟨o, ho, rfl⟩ := hcommitOf c hc
    obtain ⟨p₀, hp₀, hop, -⟩ := exists_of_forall₂_right hrel ho
    obtain ⟨hp₀s, hp₀u⟩ := PlanStore.mem_plansForUser.1 hp₀
    obtain rfl : p = p₀ := List.inj_on_of_nodup_map hs.ids hp hp₀s (hpc.trans hop)
    have hqu : q ∈ s.store.plansForUser scope.user :=
      PlanStore.mem_plansForUser.2 ⟨hq, hown.trans hp₀u⟩
    obtain ⟨o', ho', hoq, -⟩ := exists_of_forall₂ hrel hqu
    exact absurd hoq (hnone (commitOf o') (List.mem_map_of_mem ho'))

/-- Matching one plan keeps claims sound: its new jobs are none of those the owner's other
plans claim. -/
theorem claimsSound_matchPlanJobs {planId : Ident} {characters : List Nat} {since : Int}
    {o : MatchOutcome} (hjobs : (s.world.jobs.map (·.id)).Nodup)
    (h : (matchPlanJobs planId characters since).run s = .ok o t)
    (hs : s.store.ClaimsSound s.world.jobs) :
    t.world = s.world ∧ t.store.ClaimsSound s.world.jobs := by
  obtain ⟨hw, plan, hplan, hid, claimed', hsound, hcommit⟩ := matchPlanJobs_ok hjobs h
  refine ⟨hw, hs.commit (by exact List.nodup_singleton _) hcommit ?_ ?_ ?_ ?_⟩
  · intro c hc
    rw [List.mem_singleton] at hc
    subst hc
    exact hsound.distinct
  · intro c hc
    rw [List.mem_singleton] at hc
    subst hc
    exact hsound.grounded
  · intro c hc c' hc' hne
    rw [List.mem_singleton] at hc hc'
    subst hc hc'
    exact absurd rfl hne
  · intro c hc p hp hpc q hq hown hnone m hm m' hm'
    rw [List.mem_singleton] at hc
    subst hc
    obtain rfl : p = plan := List.inj_on_of_nodup_map hs.ids hp hplan (hpc.trans hsound.plan_eq)
    have hqid : some q.id ≠ some planId := by
      intro heq
      exact hnone (commitOf o) (List.mem_singleton_self _) (by
        rw [Option.some_inj.1 heq, ← hid, ← hsound.plan_eq]
        rfl)
    have hclaimed : m'.job ∈ s.store.claimedJobs p.owner (some planId) :=
      PlanStore.mem_claimedJobs.2 ⟨q, hq, hown, hqid, List.mem_map_of_mem hm'⟩
    exact fun heq => hsound.fresh m hm (heq ▸ hclaimed)

end Claims

@[simp] theorem run_nil (s : Service) : s.run [] = s := rfl

@[simp] theorem run_cons (s : Service) (r : Request) (rs : List Request) :
    s.run (r :: rs) = (s.perform r).run rs := rfl

/-- A successful operation keeps claims sound. -/
theorem claimsSound_op (hjobs : (s.world.jobs.map (·.id)).Nodup) {r : Request} {u : Unit}
    (h : r.op.run s = .ok u t) (hs : s.store.ClaimsSound s.world.jobs) :
    t.store.ClaimsSound s.world.jobs := by
  cases r with
  | createPlan plan operators =>
    obtain ⟨_, h⟩ := ServiceOp.ok_of_discard h
    exact (claimsSound_createPlan h hs).2
  | updateStep plan step edit operators =>
    obtain ⟨_, h⟩ := ServiceOp.ok_of_discard h
    exact (claimsSound_updateStep h hs).2
  | deletePlan plan => exact (claimsSound_deletePlan h hs).2
  | matchJobs scope =>
    obtain ⟨_, h⟩ := ServiceOp.ok_of_discard h
    exact (claimsSound_matchJobs hjobs h hs).2
  | matchPlanJobs plan characters since =>
    obtain ⟨_, h⟩ := ServiceOp.ok_of_discard h
    exact (claimsSound_matchPlanJobs hjobs h hs).2
  | computeProfit request =>
    obtain ⟨_, h⟩ := ServiceOp.ok_of_discard h
    exact (claimsSound_computeProfit h hs).2

/-- Every operation keeps the world and keeps claims sound: a failed one leaves the store it
found. -/
theorem perform_claimsSound (hjobs : (s.world.jobs.map (·.id)).Nodup)
    (hs : s.store.ClaimsSound s.world.jobs) (r : Request) :
    (s.perform r).world = s.world ∧ (s.perform r).store.ClaimsSound s.world.jobs := by
  refine ⟨(op_clean r).1 s, ?_⟩
  unfold perform
  cases hrun : r.op.run s with
  | error e t =>
    rw [after, (op_clean r).2 s e t hrun]
    exact hs
  | ok u t => exact claimsSound_op hjobs hrun hs

/-- A run keeps the world and keeps claims sound. -/
theorem run_claimsSound (hjobs : (s.world.jobs.map (·.id)).Nodup)
    (hs : s.store.ClaimsSound s.world.jobs) (requests : List Request) :
    (s.run requests).world = s.world ∧ (s.run requests).store.ClaimsSound s.world.jobs := by
  induction requests generalizing s with
  | nil => exact ⟨rfl, hs⟩
  | cons r rs ih =>
    obtain ⟨hw, hc⟩ := perform_claimsSound hjobs hs r
    rw [run_cons, ← hw]
    exact ih (hw ▸ hjobs) (hw ▸ hc)

/-- Every store the plan service reaches from an empty store, over a world whose jobs have
distinct ids, claims each job once: no job is matched twice across the plans of an owner, and
each match of a plan names a step of the plan with the job's recipe and activity, for a job
that is neither cancelled nor reverted. -/
theorem run_claimsOnce (s : Service) (requests : List Request)
    (hjobs : (s.world.jobs.map (·.id)).Nodup) (hempty : s.store = {}) :
    (s.run requests).store.ClaimsOnce s.world.jobs := by
  have hs : s.store.ClaimsSound s.world.jobs := hempty ▸ PlanStore.claimsSound_empty _
  exact (run_claimsSound hjobs hs requests).2.claimsOnce

/-- Two jobs of one recipe, the second cancelled: a plan is created and its owner's jobs are
matched. -/
theorem run_claimsOnce_cancelledJob :
    (([{ id := 1, recipe := 1, runs := 1 },
        { id := 2, recipe := 1, runs := 1, status := .cancelled }] : List Job).map (·.id)).Nodup ∧
      (({ world := { jobs := [{ id := 1, recipe := 1, runs := 1 },
          { id := 2, recipe := 1, runs := 1, status := .cancelled }] } } : Service).run
        [.createPlan { id := .given 1, targets := [{ material := 1, quantity := 1 }] } [],
          .matchJobs {}]).store.ClaimsOnce
        [{ id := 1, recipe := 1, runs := 1 },
          { id := 2, recipe := 1, runs := 1, status := .cancelled }] :=
  ⟨by decide, run_claimsOnce _ _ (by decide) rfl⟩

end Service

end Fabrication
