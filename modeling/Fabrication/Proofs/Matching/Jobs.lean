import Fabrication.Proofs.Step.Frame
import Fabrication.Proofs.Table
import Fabrication.Matching.Jobs
import Mathlib.Data.List.Perm.Subperm

/-!
# Matching claims each job once

A matching pass walks the steps of a plan and takes, for each, jobs from a pool: the
matchable jobs of the world with the step's recipe and activity that are not yet claimed.
`MatchState.Sound` is what the pass keeps true along the way: the matched jobs are distinct,
none was claimed before the pass, each is claimed by it, and each match names a step of the
plan with the job's recipe and activity (`StepMatch.Grounded`). Facility corrections and the
recalculation that follows change bonuses, runs and quantities but no step's identity, so
`matchPlan_sound` carries these facts to the outcome of matching a plan.
-/

namespace Fabrication

open scoped List

/-- Along a sub-permutation, distinct keys stay distinct. -/
private theorem nodup_map_of_subperm {f : Job → Nat} {l₁ l₂ : List Job} (h : l₁ <+~ l₂)
    (hd : (l₂.map f).Nodup) : (l₁.map f).Nodup := by
  obtain ⟨l, hp, hs⟩ := h
  exact (hp.map f).nodup_iff.1 (hd.sublist (hs.map f))

/-- A fold whose every step keeps a sub-permutation of what it had and the job it saw ends
with a sub-permutation of what it started with and the jobs it walked. -/
private theorem foldl_subperm {β : Type} (g : β → List Job) {F : β → Job → β} {l : List Job}
    {b r : β} (h : l.foldl F b = r) (hF : ∀ b j, g (F b j) <+~ g b ++ [j]) : g r <+~ g b ++ l := by
  subst h
  induction l generalizing b with
  | nil => simpa using List.Subperm.refl (g b)
  | cons j l ih =>
    rw [List.foldl_cons]
    have hstep : g (F b j) ++ l <+~ g b ++ j :: l := by
      simpa using (List.subperm_append_right l).2 (hF b j)
    exact ih.trans hstep

/-- The jobs taken from a pool are jobs of the pool, each at most as often as it occurs. -/
theorem selectJobs_subperm (pool : List Job) (runs : Nat) : selectJobs pool runs <+~ pool := by
  unfold selectJobs
  split
  rename_i taken skipped remaining hr
  -- every job walked is dropped, taken or skipped, so taken and skipped jobs come from the pool
  have hsub := foldl_subperm (fun acc : List Job × List Job × Nat => acc.1 ++ acc.2.1) hr
    (fun acc j => by
      obtain ⟨t, s, rem⟩ := acc
      dsimp only
      split_ifs
      · exact (List.sublist_append_left _ _).subperm
      · have hperm : t ++ [j] ++ s ~ t ++ s ++ [j] := by
          simpa using List.perm_middle.trans (List.perm_append_singleton j (t ++ s)).symm
        exact hperm.subperm
      · simpa using List.Subperm.refl (t ++ s ++ [j]))
  simp only [List.append_nil, List.nil_append] at hsub
  split_ifs
  · split
    · rename_i j rest
      exact ((List.singleton_sublist.2 List.mem_cons_self).append_left taken).subperm.trans hsub
    · exact (List.sublist_append_left _ _).subperm.trans hsub
  · exact (List.sublist_append_left _ _).subperm.trans hsub


theorem candidateJobs_subperm (world : World) (scope : MatchScope) (recipe : Nat) :
    candidateJobs world scope recipe <+~ world.jobs :=
  ⟨_, (sortBy_perm _ _).symm, List.filter_sublist.trans List.filter_sublist⟩

theorem mem_candidateJobs {world : World} {scope : MatchScope} {recipe : Nat} {j : Job}
    (h : j ∈ candidateJobs world scope recipe) :
    j ∈ world.jobs ∧ j.recipe = recipe ∧ j.isMatchable := by
  simp only [candidateJobs, World.jobsFor, mem_sortBy, List.mem_filter, Bool.and_eq_true,
    beq_iff_eq] at h
  exact ⟨h.1.1, h.1.2.1.1, h.2⟩

/-- A match is grounded in a list of jobs and in the steps of a plan, given by their
identities: its job is one of the jobs and neither cancelled nor reverted, and the step it
names has the job's recipe and activity. -/
def StepMatch.Grounded (jobs : List Job) (idents : List (Ident × Nat × Activity))
    (m : StepMatch) : Prop :=
  ∃ j ∈ jobs, j.id = m.job ∧ j.isMatchable ∧ (m.step, j.recipe, j.activity) ∈ idents

theorem StepMatch.Grounded.mono {jobs : List Job} {idents idents' : List (Ident × Nat × Activity)}
    {m : StepMatch} (h : m.Grounded jobs idents) (hsub : ∀ x ∈ idents, x ∈ idents') :
    m.Grounded jobs idents' := by
  obtain ⟨j, hj, hid, hmat, hin⟩ := h
  exact ⟨j, hj, hid, hmat, hsub _ hin⟩

namespace MatchState

/-- What a matching pass keeps of its state, for the jobs of its world, the identities of the
plan's steps and the jobs claimed before it started: the steps are the plan's, the matched
jobs are distinct, claimed by the pass and not before it, and each match is grounded. -/
structure Sound (jobs : List Job) (idents : List (Ident × Nat × Activity)) (claimed₀ : List Nat)
    (st : MatchState) : Prop where
  steps : st.steps.map Step.ident = idents
  distinct : (st.assignments.map (·.job)).Nodup
  fresh : ∀ m ∈ st.assignments, m.job ∉ claimed₀
  claims : ∀ m ∈ st.assignments, m.job ∈ st.claimed
  grows : ∀ x ∈ claimed₀, x ∈ st.claimed
  grounded : ∀ m ∈ st.assignments, m.Grounded jobs idents

theorem sound_start (jobs : List Job) (steps : List Step) (claimed : List Nat) :
    Sound jobs (steps.map Step.ident) claimed { steps, claimed } :=
  ⟨rfl, List.nodup_nil, by simp, by simp, fun _ hx => hx, by simp⟩

theorem mem_claim {c : List Nat} {x y : Nat} :
    x ∈ (if c.contains y then c else c ++ [y]) ↔ x ∈ c ∨ x = y := by
  split
  · rename_i hy
    have : y ∈ c := by simpa using hy
    constructor
    · exact .inl
    · rintro (hx | rfl)
      · exact hx
      · exact this
  · simp

/-- A fold over taken jobs, each step recording one match and claiming its job. -/
private theorem foldl_record {F : MatchState → Job → MatchState} (mk : Job → StepMatch)
    {l : List Job} {st r : MatchState} (h : l.foldl F st = r)
    (hF : ∀ st j, (F st j).steps = st.steps ∧ (F st j).assignments = st.assignments ++ [mk j] ∧
      j.id ∈ (F st j).claimed ∧ ∀ x ∈ st.claimed, x ∈ (F st j).claimed) :
    r.steps = st.steps ∧ r.assignments = st.assignments ++ l.map mk ∧
      (∀ j ∈ l, j.id ∈ r.claimed) ∧ ∀ x ∈ st.claimed, x ∈ r.claimed := by
  subst h
  induction l generalizing st with
  | nil => simp
  | cons j l ih =>
    obtain ⟨hs, ha, hj, hg⟩ := hF st j
    obtain ⟨ihs, iha, ihj, ihg⟩ := @ih (F st j)
    refine ⟨ihs.trans hs, by simp [iha, ha], ?_, fun x hx => ihg x (hg x hx)⟩
    rintro j' (_ | ⟨_, hj'⟩)
    · exact ihg _ hj
    · exact ihj j' hj'

/-- Matching a step takes a part of its pool (the jobs of its recipe and activity not yet
claimed), records one match for each taken job and claims it; the steps keep their
identities. -/
theorem matchStep_records {config : EngineConfig} {plan : Ident} {world : World}
    {scope : MatchScope} {st st' : MatchState} {index : Nat}
    (h : matchStep config plan world scope st index = .ok st') :
    ∃ taken, taken <+~ (candidateJobs world scope (Step.stepAt st.steps index).recipe).filter
        (fun j => j.activity == (Step.stepAt st.steps index).activity && !st.claimed.contains j.id) ∧
      st'.steps.map Step.ident = st.steps.map Step.ident ∧
      st'.assignments = st.assignments ++ taken.map (fun j =>
        ⟨plan, (Step.stepAt st.steps index).id, j.id, j.runs, driftOf (Step.stepAt st.steps index) j⟩) ∧
      (∀ j ∈ taken, j.id ∈ st'.claimed) ∧ ∀ x ∈ st.claimed, x ∈ st'.claimed := by
  unfold matchStep at h
  dsimp only at h
  split at h
  · cases h
    exact ⟨[], List.nil_subperm, rfl, by simp, by simp, fun _ hx => hx⟩
  split at h
  · cases h
    exact ⟨[], List.nil_subperm, rfl, by simp, by simp, fun _ hx => hx⟩
  obtain ⟨matched, -, h⟩ := ok_of_bind h
  generalize hr : List.foldl _ st _ = r at h
  obtain ⟨hrs, hra, hrc, hrg⟩ := foldl_record _ hr (fun st j => by
    split
    · split
      all_goals exact ⟨rfl, rfl, mem_claim.2 (.inr rfl), fun x hx => mem_claim.2 (.inl hx)⟩
    · exact ⟨rfl, rfl, mem_claim.2 (.inr rfl), fun x hx => mem_claim.2 (.inl hx)⟩)
  refine ⟨_, selectJobs_subperm _ (Step.stepAt st.steps index).runs, ?_⟩
  split at h <;> cases h
  · refine ⟨?_, hra, hrc, hrg⟩
    rw [Step.map_ident_set (by rw [hrs]; rfl), hrs]
  · exact ⟨by rw [hrs], hra, hrc, hrg⟩

section Step

variable {jobs : List Job} {idents : List (Ident × Nat × Activity)} {claimed₀ : List Nat}

/-- Matching a step keeps a pass sound when the jobs of the world have distinct ids and the
step is one of the plan's. -/
theorem Sound.matchStep {config : EngineConfig} {plan : Ident} {world : World}
    {scope : MatchScope} {st st' : MatchState} {index : Nat}
    (hjobs : (world.jobs.map (·.id)).Nodup) (hi : index < st.steps.length)
    (hs : Sound world.jobs idents claimed₀ st)
    (h : Fabrication.matchStep config plan world scope st index = .ok st') :
    Sound world.jobs idents claimed₀ st' := by
  obtain ⟨taken, hsub, hsteps, hassign, hclaim, hgrow⟩ := matchStep_records h
  have hstep : Step.stepAt st.steps index ∈ st.steps := by
    have : Step.stepAt st.steps index = st.steps[index] := by simp [Step.stepAt, hi]
    rw [this]
    exact List.getElem_mem hi
  have hpool : ∀ j ∈ taken, j ∈ world.jobs ∧ j.isMatchable ∧
      (j.recipe, j.activity) = ((Step.stepAt st.steps index).recipe,
        (Step.stepAt st.steps index).activity) ∧ j.id ∉ st.claimed := by
    intro j hj
    obtain ⟨hc, hf⟩ := List.mem_filter.1 (hsub.subset hj)
    obtain ⟨hw, hr, hm⟩ := mem_candidateJobs hc
    simp only [Bool.and_eq_true, beq_iff_eq, Bool.not_eq_true'] at hf
    exact ⟨hw, hm, by rw [hr, hf.1], by simpa using hf.2⟩
  have hids : (taken.map (·.id)).Nodup :=
    nodup_map_of_subperm (hsub.trans (List.filter_sublist.subperm.trans
      (candidateJobs_subperm world scope _))) hjobs
  have hmem : ∀ m ∈ st'.assignments, m ∈ st.assignments ∨
      ∃ j ∈ taken, m = ⟨plan, (Step.stepAt st.steps index).id, j.id, j.runs,
        driftOf (Step.stepAt st.steps index) j⟩ := by
    intro m hm
    rw [hassign, List.mem_append, List.mem_map] at hm
    rcases hm with hm | ⟨j, hj, rfl⟩
    · exact .inl hm
    · exact .inr ⟨j, hj, rfl⟩
  refine ⟨hsteps.trans hs.steps, ?_, ?_, ?_, fun x hx => hgrow x (hs.grows x hx), ?_⟩
  · rw [hassign, List.map_append, List.map_map]
    refine List.nodup_append.2 ⟨hs.distinct, by simpa [Function.comp_def] using hids, ?_⟩
    intro a ha b hb hab
    obtain ⟨m, hm, rfl⟩ := List.mem_map.1 ha
    obtain ⟨j, hj, rfl⟩ := List.mem_map.1 hb
    simp only [Function.comp_apply] at hab
    exact (hpool j hj).2.2.2 (hab ▸ hs.claims m hm)
  · intro m hm
    rcases hmem m hm with hm | ⟨j, hj, rfl⟩
    · exact hs.fresh m hm
    · exact fun h0 => (hpool j hj).2.2.2 (hs.grows _ h0)
  · intro m hm
    rcases hmem m hm with hm | ⟨j, hj, rfl⟩
    · exact hgrow _ (hs.claims m hm)
    · exact hclaim j hj
  · intro m hm
    rcases hmem m hm with hm | ⟨j, hj, rfl⟩
    · exact hs.grounded m hm
    · obtain ⟨hw, hmat, hra, -⟩ := hpool j hj
      refine ⟨j, hw, rfl, hmat, ?_⟩
      rw [← hs.steps, hra]
      exact List.mem_map_of_mem hstep

end Step

end MatchState

theorem lt_of_mem_matchOrder {steps : List Step} {i : Nat} (h : i ∈ matchOrder steps) :
    i < steps.length := by
  simpa [matchOrder] using h

/-- A facility correction moves steps between facilities and changes their bonuses only. -/
theorem applyCorrection_ident {res : Resolver} {user : Nat}
    {acc acc' : List Step × List Ident × List String} {entry : Ident × Correction}
    (h : applyCorrection res user acc entry = .ok acc') : acc'.1.map Step.ident = acc.1.map Step.ident := by
  obtain ⟨steps, corrected, messages⟩ := acc
  unfold applyCorrection at h
  dsimp only at h
  split at h
  · cases h
    rfl
  split at h
  · cases h
    rfl
  · cases h
  · cases h
    exact Step.map_ident_map fun s => by split <;> rfl

/-- What matching a plan guarantees, started from the jobs claimed before it and ending with
the jobs claimed after it: the outcome is the plan's, with the same steps up to bonuses,
runs and quantities; its matched jobs are distinct, newly claimed and grounded in its steps. -/
structure MatchOutcome.Sound (jobs : List Job) (plan : Plan)
    (claimed claimed' : List Nat) (o : MatchOutcome) : Prop where
  plan_eq : o.plan = plan.id
  steps_eq : o.steps.map Step.ident = plan.steps.map Step.ident
  distinct : (o.assignments.map (·.job)).Nodup
  fresh : ∀ m ∈ o.assignments, m.job ∉ claimed
  claims : ∀ m ∈ o.assignments, m.job ∈ claimed'
  grows : ∀ x ∈ claimed, x ∈ claimed'
  grounded : ∀ m ∈ o.assignments, m.Grounded jobs (o.steps.map Step.ident)


/-- Matching a plan is sound when the jobs of the world have distinct ids. -/
theorem matchPlan_sound {config : EngineConfig} {plan : Plan} {book : RecipeBook}
    {scope : MatchScope} {claimed claimed' : List Nat} {world : World} {res : Resolver}
    {o : MatchOutcome} (hjobs : (world.jobs.map (·.id)).Nodup)
    (h : matchPlan config plan book scope claimed world res = .ok (o, claimed')) :
    MatchOutcome.Sound world.jobs plan claimed claimed' o := by
  unfold matchPlan at h
  obtain ⟨st, hst, h⟩ := ok_of_bind h
  have hsound : MatchState.Sound world.jobs (plan.steps.map Step.ident) claimed st := by
    refine foldlM_invariant (MatchState.Sound world.jobs (plan.steps.map Step.ident) claimed)
      (ok_of_ofFault hst) (MatchState.sound_start _ _ _) fun st i st' hi hs hstep => ?_
    have hlen : i < st.steps.length := by
      rw [← List.length_map (f := Step.ident), hs.steps, List.length_map]
      exact lt_of_mem_matchOrder hi
    exact hs.matchStep hjobs hlen hstep
  obtain ⟨⟨steps, corrected, messages⟩, hc, h⟩ := ok_of_bind h
  have hcorr : steps.map Step.ident = plan.steps.map Step.ident := by
    rw [← hsound.steps]
    exact foldlM_invariant (fun acc => acc.1.map Step.ident = st.steps.map Step.ident) hc rfl
      fun acc _ acc' _ hacc hstep => (applyCorrection_ident hstep).trans hacc
  have hout : ∀ (steps' : List Step) (changed : List Ident),
      steps'.map Step.ident = plan.steps.map Step.ident →
      MatchOutcome.Sound world.jobs plan claimed st.claimed
        ⟨plan.id, steps', st.assignments, st.adapted, corrected, changed, messages⟩ := by
    intro steps' changed hs'
    exact ⟨rfl, hs', hsound.distinct, hsound.fresh, hsound.claims, hsound.grows,
      fun m hm => hs' ▸ hsound.grounded m hm⟩
  dsimp only at h
  split at h
  · cases h
    exact hout steps [] hcorr
  · obtain ⟨recalc, hrecalc, h⟩ := ok_of_bind h
    cases h
    obtain ⟨pinned, -, hr⟩ := ok_of_bind (ok_of_ofFault hrecalc)
    exact hout _ _ ((Step.recalculate_ident hr).trans hcorr)

end Fabrication
