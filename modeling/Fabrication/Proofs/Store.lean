import Fabrication.Proofs.Outcome
import Fabrication.Proofs.Table
import Fabrication.Store
import Mathlib.Data.List.Nodup

/-!
# What the plan store's writes do

Each write of the store as one equation (`run_savePlan`, `run_deletePlan`, …): what it
answers and the store it leaves, on success and on failure. From these, every write fails
cleanly (`FailsCleanly`: a failed write leaves the store as it found it, also deleting a plan
that is not there, which removes nothing before it fails), and each successful write is read
back through the plans it keeps and the job matches of each plan: saving a plan replaces the
plan with its identifier (or adds it) and drops its matches, deleting drops both, a
recalculation rewrites steps only, and a matching commit gives each plan it names its steps
and matches. Plan identifiers stay distinct under saving.
-/

namespace Fabrication

namespace PlanStore

variable {s s' : PlanStore}

theorem run_checkWritable (s : PlanStore) :
    checkWritable.run s = if s.failWrites then .error .storeRefused s else .ok () s := by
  unfold checkWritable
  cases h : s.failWrites <;> simp [h]

theorem run_savePlan (s : PlanStore) (p : Plan) : (savePlan p).run s =
    if s.failWrites then .error .storeRefused s
    else .ok () { s with jobMatches := s.jobMatches.filter (·.1 != p.id),
                         plans := withPlan s.plans p } := by
  unfold savePlan
  rw [EStateM.run_bind, run_checkWritable]
  by_cases h : s.failWrites = true
  · rw [if_pos h, if_pos h]
  · rw [if_neg h, if_neg h]
    rfl

theorem run_deletePlan (s : PlanStore) (id : Ident) : (deletePlan id).run s =
    if s.failWrites then .error .storeRefused s
    else if s.plans.any (·.id == id) then
      .ok () { s with plans := s.plans.filter (·.id != id),
                      jobMatches := s.jobMatches.filter (·.1 != id) }
    else .error (.planNotFound id) { s with plans := s.plans.filter (·.id != id) } := by
  unfold deletePlan checkWritable
  by_cases h : s.failWrites = true
  · simp [h]
  · by_cases hf : s.plans.any (·.id == id) = true <;>
      simp only [EStateM.run_bind, EStateM.run_get, EStateM.run_modify, EStateM.run_pure,
        EStateM.run_throw, h, hf, if_true, if_false, Bool.false_eq_true]

theorem run_commitRecalculation (s : PlanStore) (id : Ident) (steps : List Step) :
    (commitRecalculation id steps).run s =
    if s.failWrites then .error .storeRefused s
    else if s.plans.any (·.id == id) then
      .ok () { s with plans := s.plans.map fun p => if p.id == id then { p with steps } else p }
    else .error (.planNotFound id) s := by
  unfold commitRecalculation checkWritable
  by_cases h : s.failWrites = true
  · simp [h]
  · by_cases hf : s.plans.any (·.id == id) = true <;>
      simp only [EStateM.run_bind, EStateM.run_get, EStateM.run_modify, EStateM.run_pure,
        EStateM.run_throw, h, hf, if_true, if_false, Bool.false_eq_true]

theorem run_commitMatchingAll (s : PlanStore) (commits : List MatchingCommit) :
    (commitMatchingAll commits).run s =
    if s.failWrites then .error .storeRefused s
    else match commits.find? fun c => !s.plans.any (·.id == c.plan) with
      | some c => .error (.planNotFound c.plan) s
      | none => .ok () (commits.foldl applyCommit s) := by
  unfold commitMatchingAll checkWritable
  by_cases h : s.failWrites = true
  · simp [h]
  · cases hc : commits.find? fun c => !s.plans.any (·.id == c.plan) <;> simp [h, hc]

theorem run_replaceProfitMatches (s : PlanStore) (user : Nat) (window : Window)
    (materials : List Nat) (new : List ProfitMatch) :
    (replaceProfitMatches user window materials new).run s =
      if s.failWrites then .error .storeRefused s
      else
        let kept := (s.profitMatchesOfUser user).filter fun m =>
          !(window.contains m.sold && materials.contains m.material)
        .ok () { s with profitMatches := putEntry user (kept ++ new) s.profitMatches } := by
  unfold replaceProfitMatches
  rw [EStateM.run_bind, run_checkWritable]
  by_cases h : s.failWrites = true
  · rw [if_pos h, if_pos h]
  · rw [if_neg h, if_neg h]
    rfl

theorem loadPlan_ok {id : Ident} {p : Plan} (h : s.loadPlan id = .ok p) : p ∈ s.plans ∧ p.id = id := by
  unfold loadPlan at h
  split at h
  · rename_i hfind
    cases h
    exact ⟨List.mem_of_find?_eq_some hfind, by simpa using List.find?_some hfind⟩
  · cases h

theorem jobMatchesOf_of_jobMatches (h : s'.jobMatches = s.jobMatches) (x : Ident) :
    s'.jobMatchesOf x = s.jobMatchesOf x := by
  unfold jobMatchesOf
  rw [h]

/-- The job matches of a plan once the entry of a plan is dropped. -/
theorem jobMatchesOf_filter (s : PlanStore) (id x : Ident) :
    ({ s with jobMatches := s.jobMatches.filter (·.1 != id) } : PlanStore).jobMatchesOf x =
      if x = id then [] else s.jobMatchesOf x := by
  unfold jobMatchesOf
  rw [lookup_filter]
  split <;> rfl

/-- The job matches of a plan once the entry of a plan is replaced. -/
theorem jobMatchesOf_putEntry (s : PlanStore) (id x : Ident) (ms : List StepMatch) :
    ({ s with jobMatches := putEntry id ms s.jobMatches } : PlanStore).jobMatchesOf x =
      if x = id then ms else s.jobMatchesOf x := by
  unfold jobMatchesOf
  rw [lookup_putEntry]
  split <;> rfl

theorem savePlan_ok {p : Plan} {u : Unit} (h : (savePlan p).run s = .ok u s') :
    s'.plans = withPlan s.plans p ∧
    ∀ x, s'.jobMatchesOf x = if x = p.id then [] else s.jobMatchesOf x := by
  rw [run_savePlan] at h
  split at h
  · cases h
  · cases h
    exact ⟨rfl, jobMatchesOf_filter s p.id⟩

/-- Saving a plan puts it in place of the plan with its identifier, or after all plans. -/
theorem mem_savePlan {p q : Plan} {u : Unit} (h : (savePlan p).run s = .ok u s') :
    q ∈ s'.plans ↔ q = p ∨ (q ∈ s.plans ∧ q.id ≠ p.id) := by
  rw [(savePlan_ok h).1, withPlan]
  split
  · rename_i hany
    obtain ⟨r, hr, hrp⟩ := List.any_eq_true.1 hany
    simp only [List.mem_map]
    constructor
    · rintro ⟨r', hr', rfl⟩
      by_cases hid : r'.id = p.id <;> simp [hid, hr']
    · rintro (rfl | ⟨hq, hid⟩)
      · exact ⟨r, hr, by simp [hrp]⟩
      · exact ⟨q, hq, by simp [hid]⟩
  · rename_i hany
    simp only [List.mem_append, List.mem_singleton]
    constructor
    · rintro (hq | rfl)
      · exact .inr ⟨hq, fun hid => hany (List.any_eq_true.2 ⟨q, hq, by simp [hid]⟩)⟩
      · exact .inl rfl
    · rintro (rfl | ⟨hq, -⟩)
      · exact .inr rfl
      · exact .inl hq

theorem savePlan_ids_nodup {p : Plan} {u : Unit} (h : (savePlan p).run s = .ok u s')
    (hnd : (s.plans.map (·.id)).Nodup) : (s'.plans.map (·.id)).Nodup := by
  rw [(savePlan_ok h).1, withPlan]
  split
  · have : (s.plans.map fun q => if q.id == p.id then p else q).map (·.id) = s.plans.map (·.id) := by
      simp only [List.map_map]
      apply List.map_congr_left
      intro q _
      by_cases hid : q.id = p.id <;> simp [hid]
    rwa [this]
  · rename_i hany
    simp only [List.map_append, List.map_cons, List.map_nil]
    rw [List.nodup_append]
    refine ⟨hnd, List.nodup_singleton _, ?_⟩
    intro a ha b hb hab
    rw [List.mem_singleton] at hb
    obtain ⟨q, hq, rfl⟩ := List.mem_map.1 ha
    exact hany (List.any_eq_true.2 ⟨q, hq, by simp [hab, hb]⟩)

theorem deletePlan_ok {id : Ident} {u : Unit} (h : (deletePlan id).run s = .ok u s') :
    s'.plans = s.plans.filter (·.id != id) ∧
    ∀ x, s'.jobMatchesOf x = if x = id then [] else s.jobMatchesOf x := by
  rw [run_deletePlan] at h
  split at h
  · cases h
  · split at h
    · cases h
      exact ⟨rfl, jobMatchesOf_filter s id⟩
    · cases h

theorem commitRecalculation_ok {id : Ident} {steps : List Step} {u : Unit}
    (h : (commitRecalculation id steps).run s = .ok u s') :
    s'.plans = s.plans.map (fun p => if p.id == id then { p with steps } else p) ∧
    s'.jobMatches = s.jobMatches := by
  rw [run_commitRecalculation] at h
  split at h
  · cases h
  · split at h
    · cases h
      exact ⟨rfl, rfl⟩
    · cases h

/-- Replacing profit matches rewrites the user's entry of profit matches and nothing else. -/
theorem replaceProfitMatches_ok {user : Nat} {window : Window} {materials : List Nat}
    {new : List ProfitMatch} {u : Unit}
    (h : (replaceProfitMatches user window materials new).run s = .ok u s') :
    s' = { s with profitMatches := putEntry user ((s.profitMatchesOfUser user).filter (fun m =>
      !(window.contains m.sold && materials.contains m.material)) ++ new) s.profitMatches } := by
  rw [run_replaceProfitMatches] at h
  split at h
  · cases h
  · cases h
    rfl

/-- The profit matches of each user once one user's matches are put. -/
theorem profitMatchesOfUser_put (s : PlanStore) (user u : Nat) (ms : List ProfitMatch) :
    { s with profitMatches := putEntry user ms s.profitMatches }.profitMatchesOfUser u =
      if u = user then ms else s.profitMatchesOfUser u := by
  unfold profitMatchesOfUser
  rw [lookup_putEntry]
  split <;> rfl

/-- Replacing a user's profit matches with new ones that the replacement itself deletes
(sold in the window, of the materials) a second time leaves the store as it is. -/
theorem replaceProfitMatches_again
    {user : Nat} {window : Window} {materials : List Nat} {new : List ProfitMatch}
    (hnew : ∀ m ∈ new, (window.contains m.sold && materials.contains m.material) = true) {u : Unit}
    (h : (replaceProfitMatches user window materials new).run s = .ok u s') :
    (replaceProfitMatches user window materials new).run s' = .ok () s' := by
  have hwrite : ¬s.failWrites = true := by
    intro hf
    rw [run_replaceProfitMatches, if_pos hf] at h
    cases h
  obtain rfl := replaceProfitMatches_ok h
  have hdrop : new.filter (fun m => !(window.contains m.sold && materials.contains m.material)) = [] :=
    List.filter_eq_nil_iff.2 fun m hm => by rw [hnew m hm]; decide
  rw [run_replaceProfitMatches, if_neg hwrite, profitMatchesOfUser_put, if_pos rfl,
    List.filter_append, List.filter_filter, hdrop, List.append_nil]
  simp only [Bool.and_self, putEntry_putEntry]

section Failure

/-- A write fails cleanly when, failing, it leaves the store as it found it. -/
def FailsCleanly {α : Type} (w : StoreWrite α) : Prop :=
  ∀ s e s', w.run s = .error e s' → s' = s

theorem savePlan_failsCleanly (p : Plan) : FailsCleanly (savePlan p) := by
  intro s e s' h
  rw [run_savePlan] at h
  split at h
  · cases h
    rfl
  · cases h

/-- Deleting a plan removes it before it checks that there was one; removing a plan that is
not there leaves the plans as they were. -/
theorem deletePlan_failsCleanly (id : Ident) : FailsCleanly (deletePlan id) := by
  intro s e s' h
  rw [run_deletePlan] at h
  split at h
  · cases h
    rfl
  · split at h
    · cases h
    · rename_i hany
      cases h
      have hkeep : s.plans.filter (·.id != id) = s.plans := by
        rw [List.filter_eq_self]
        intro q hq
        simpa using fun hid => hany (List.any_eq_true.2 ⟨q, hq, by simp [hid]⟩)
      rw [hkeep]

theorem commitRecalculation_failsCleanly (id : Ident) (steps : List Step) :
    FailsCleanly (commitRecalculation id steps) := by
  intro s e s' h
  rw [run_commitRecalculation] at h
  split at h
  · cases h
    rfl
  · split at h
    · cases h
    · cases h
      rfl

theorem commitMatchingAll_failsCleanly (commits : List MatchingCommit) :
    FailsCleanly (commitMatchingAll commits) := by
  intro s e s' h
  rw [run_commitMatchingAll] at h
  split at h
  · cases h
    rfl
  · split at h
    · cases h
      rfl
    · cases h

theorem replaceProfitMatches_failsCleanly (user : Nat) (window : Window) (materials : List Nat)
    (new : List ProfitMatch) : FailsCleanly (replaceProfitMatches user window materials new) := by
  intro s e s' h
  rw [run_replaceProfitMatches] at h
  split at h
  · cases h
    rfl
  · cases h

end Failure

section Users

variable {s : PlanStore} {user : Nat}

@[simp] theorem mem_plansForUser {p : Plan} : p ∈ s.plansForUser user ↔ p ∈ s.plans ∧ p.owner = user := by
  simp [plansForUser]

theorem plansForUser_of_plans (h : s'.plans = s.plans) : s'.plansForUser user = s.plansForUser user := by
  unfold plansForUser
  rw [h]

theorem plansForUser_ids_nodup (hnd : (s.plans.map (·.id)).Nodup) :
    ((s.plansForUser user).map (·.id)).Nodup :=
  ((sortBy_perm _ _).map _).nodup_iff.2 (hnd.sublist (List.filter_sublist.map _))

/-- The jobs claimed by a user's plans, all but one, are the jobs matched to those plans. -/
theorem mem_claimedJobs {except : Option Ident} {j : Nat} :
    j ∈ s.claimedJobs user except ↔
      ∃ p ∈ s.plans, p.owner = user ∧ some p.id ≠ except ∧ j ∈ (s.jobMatchesOf p.id).map (·.job) := by
  simp only [claimedJobs, mem_ascendingSet, List.mem_flatMap, List.mem_filter, Bool.and_eq_true,
    beq_iff_eq, bne_iff_ne, ne_eq]
  constructor
  · rintro ⟨p, ⟨hp, hown, hid⟩, hj⟩
    exact ⟨p, hp, hown, hid, hj⟩
  · rintro ⟨p, hp, hown, hid, hj⟩
    exact ⟨p, ⟨hp, hown, hid⟩, hj⟩

end Users

section Commit

/-- One pass over matching commits where each step rewrites the steps and the job matches of the
plan it names; `commits` name distinct plans, so each plan sees at most one of them. -/
private theorem foldl_commits {f : PlanStore → MatchingCommit → PlanStore}
    (hplans : ∀ s c, (f s c).plans =
      s.plans.map fun p => if p.id == c.plan then { p with steps := c.steps } else p)
    (hmatch : ∀ s c x, (f s c).jobMatchesOf x = if x = c.plan then c.assignments else s.jobMatchesOf x)
    (commits : List MatchingCommit) (hnd : (commits.map (·.plan)).Nodup) (s : PlanStore) :
    (commits.foldl f s).plans = s.plans.map (fun p =>
        ((commits.find? (·.plan == p.id)).map fun c => { p with steps := c.steps }).getD p) ∧
      ∀ x, (commits.foldl f s).jobMatchesOf x =
        ((commits.find? (·.plan == x)).map (·.assignments)).getD (s.jobMatchesOf x) := by
  induction commits generalizing s with
  | nil => simp
  | cons c cs ih =>
    rw [List.map_cons, List.nodup_cons] at hnd
    have hnone : cs.find? (·.plan == c.plan) = none := by
      rw [List.find?_eq_none]
      intro d hd hdc
      exact hnd.1 (by simpa [(beq_iff_eq.1 hdc)] using List.mem_map_of_mem (f := (·.plan)) hd)
    obtain ⟨ihp, ihm⟩ := ih hnd.2 (f s c)
    refine ⟨?_, fun x => ?_⟩
    · rw [List.foldl_cons, ihp, hplans, List.map_map]
      apply List.map_congr_left
      intro p _
      by_cases hp : p.id = c.plan
      · simp [hp, hnone]
      · simp [hp, Ne.symm hp]
    · rw [List.foldl_cons, ihm, hmatch]
      by_cases hx : x = c.plan
      · simp [hx, hnone]
      · simp [hx, Ne.symm hx]

variable {s s' : PlanStore} {commits : List MatchingCommit}

/-- Committing matching passes for distinct plans gives each named plan its new steps and job
matches and leaves every other plan and entry as it was. -/
theorem commitMatchingAll_ok (hnd : (commits.map (·.plan)).Nodup) {u : Unit}
    (h : (commitMatchingAll commits).run s = .ok u s') :
    s'.plans = s.plans.map (fun p =>
        ((commits.find? (·.plan == p.id)).map fun c => { p with steps := c.steps }).getD p) ∧
      ∀ x, s'.jobMatchesOf x =
        ((commits.find? (·.plan == x)).map (·.assignments)).getD (s.jobMatchesOf x) := by
  rw [run_commitMatchingAll] at h
  split at h
  · cases h
  · split at h
    · cases h
    · cases h
      refine foldl_commits ?_ ?_ commits hnd s
      · intro s c
        rfl
      · intro s c x
        exact jobMatchesOf_putEntry s c.plan x c.assignments

private theorem foldl_applyCommit_plans (hnd : (commits.map (·.plan)).Nodup) (s : PlanStore) :
    (commits.foldl applyCommit s).plans = s.plans.map (fun p =>
      ((commits.find? (·.plan == p.id)).map fun c => { p with steps := c.steps }).getD p) :=
  (foldl_commits (f := applyCommit) (fun _ _ => rfl)
    (fun s c x => jobMatchesOf_putEntry s c.plan x c.assignments) commits hnd s).1

/-- Matching commits keep the identifiers of the plans, in order. -/
theorem foldl_applyCommit_ids (hnd : (commits.map (·.plan)).Nodup) (s : PlanStore) :
    (commits.foldl applyCommit s).plans.map (·.id) = s.plans.map (·.id) := by
  rw [foldl_applyCommit_plans hnd, List.map_map]
  apply List.map_congr_left
  intro q _
  simp only [Function.comp_apply]
  cases commits.find? (·.plan == q.id) <;> rfl

/-- The job matches after matching commits are the puts of each commit's matches. -/
theorem foldl_applyCommit_jobMatches (commits : List MatchingCommit) (s : PlanStore) :
    (commits.foldl applyCommit s).jobMatches =
      (commits.map fun c => (c.plan, c.assignments)).foldl (fun es e => putEntry e.1 e.2 es)
        s.jobMatches := by
  induction commits generalizing s with
  | nil => rfl
  | cons c cs ih => exact ih (applyCommit s c)

/-- A commit that finds its steps in every plan it names keeps the plans. -/
theorem applyCommit_plans {c : MatchingCommit}
    (hsteps : ∀ p ∈ s.plans, p.id = c.plan → p.steps = c.steps) : (applyCommit s c).plans = s.plans := by
  refine (List.map_congr_left (g := id) fun p hp => ?_).trans (List.map_id _)
  by_cases hpc : p.id = c.plan
  · rw [if_pos (beq_iff_eq.2 hpc), ← hsteps p hp hpc]
    rfl
  · rw [if_neg (by simpa using hpc)]
    rfl

/-- A commit that finds its steps in every plan it names and its matches stored changes
nothing. -/
theorem applyCommit_of_holdsAt {c : MatchingCommit}
    (hsteps : ∀ p ∈ s.plans, p.id = c.plan → p.steps = c.steps)
    (hmatch : HoldsAt s.jobMatches c.plan c.assignments) : applyCommit s c = s := by
  have hplans := applyCommit_plans hsteps
  unfold applyCommit at hplans ⊢
  dsimp only at hplans
  rw [hplans, putEntry_of_holdsAt hmatch]

/-- Committing matching passes for distinct plans a second time changes nothing. -/
theorem foldl_applyCommit_twice (hnd : (commits.map (·.plan)).Nodup) (s : PlanStore) :
    commits.foldl applyCommit (commits.foldl applyCommit s) = commits.foldl applyCommit s := by
  have hkeys : ((commits.map fun c => (c.plan, c.assignments)).map (·.1)).Nodup := by
    simpa [List.map_map, Function.comp_def] using hnd
  -- after the first pass every commit finds its steps and its matches in place
  have hdone : ∀ c ∈ commits,
      applyCommit (commits.foldl applyCommit s) c = commits.foldl applyCommit s := by
    intro c hc
    refine applyCommit_of_holdsAt (fun p hp hpc => ?_) ?_
    · rw [foldl_applyCommit_plans hnd] at hp
      obtain ⟨q, -, rfl⟩ := List.mem_map.1 hp
      cases hq : commits.find? (·.plan == q.id) with
      | none =>
        rw [hq] at hpc
        exact absurd (List.find?_eq_none.1 hq c hc) (by simpa using hpc.symm)
      | some c' =>
        rw [hq] at hpc
        simp only [Option.map_some, Option.getD_some] at hpc ⊢
        have hc' : c'.plan = q.id := by simpa using List.find?_some hq
        rw [List.inj_on_of_nodup_map hnd (List.mem_of_find?_eq_some hq) hc (hc'.trans hpc)]
    · rw [foldl_applyCommit_jobMatches]
      exact holdsAt_foldl_putEntry hkeys _ (c.plan, c.assignments) (List.mem_map_of_mem hc)
  exact foldl_invariant (· = commits.foldl applyCommit s) rfl
    fun t c hc ht => ht ▸ hdone c hc

/-- Committing matching passes that carry the steps their plans already have keeps the plans. -/
theorem commitMatchingAll_plans
    (hsteps : ∀ c ∈ commits, ∀ p ∈ s.plans, p.id = c.plan → p.steps = c.steps) {u : Unit}
    (h : (commitMatchingAll commits).run s = .ok u s') : s'.plans = s.plans := by
  rw [run_commitMatchingAll] at h
  split at h
  · cases h
  split at h
  · cases h
  cases h
  exact foldl_invariant (fun t : PlanStore => t.plans = s.plans) rfl fun t c hc ht =>
    (applyCommit_plans (ht ▸ hsteps c hc)).trans ht

/-- The commit for a plan, among commits for distinct plans, is the one found by its plan. -/
theorem find?_plan_of_mem (hnd : (commits.map (·.plan)).Nodup) {c : MatchingCommit}
    (hc : c ∈ commits) : commits.find? (·.plan == c.plan) = some c :=
  find?_key_of_mem MatchingCommit.plan hnd hc

/-- Right after a commit for distinct plans succeeded, commits naming only plans it named succeed
on the store it left. -/
theorem commitMatchingAll_after (hnd : (commits.map (·.plan)).Nodup)
    {commits' : List MatchingCommit} (hnamed : ∀ c' ∈ commits', ∃ c ∈ commits, c.plan = c'.plan)
    {u : Unit} (h : (commitMatchingAll commits).run s = .ok u s') :
    (commitMatchingAll commits').run s' = .ok () (commits'.foldl applyCommit s') := by
  rw [run_commitMatchingAll] at h ⊢
  split at h
  · cases h
  rename_i hwrite
  split at h
  · cases h
  rename_i hfind
  cases h
  have hflag : (commits.foldl applyCommit s).failWrites = s.failWrites :=
    foldl_invariant (fun t : PlanStore => t.failWrites = s.failWrites) rfl fun _ _ _ ht => ht
  have hany : ∀ x, (commits.foldl applyCommit s).plans.any (·.id == x) = s.plans.any (·.id == x) := by
    intro x
    simpa [List.any_map, Function.comp_def] using
      congrArg (fun ids => ids.any (· == x)) (foldl_applyCommit_ids hnd s)
  have hfind' : commits'.find? (fun c => !(commits.foldl applyCommit s).plans.any (·.id == c.plan)) =
      none := by
    rw [List.find?_eq_none] at hfind ⊢
    intro c' hc'
    obtain ⟨c, hc, hplan⟩ := hnamed c' hc'
    rw [hany, ← hplan]
    exact hfind c hc
  rw [if_neg (by rw [hflag]; exact hwrite), hfind']

/-- Committing a matching pass for distinct plans once more, right after it succeeded,
succeeds and changes nothing. -/
theorem commitMatchingAll_again (hnd : (commits.map (·.plan)).Nodup) {u : Unit}
    (h : (commitMatchingAll commits).run s = .ok u s') :
    (commitMatchingAll commits).run s' = .ok () s' := by
  have hs' : s' = commits.foldl applyCommit s := by
    rw [run_commitMatchingAll] at h
    split at h
    · cases h
    split at h
    · cases h
    cases h
    rfl
  rw [commitMatchingAll_after hnd (fun c hc => ⟨c, hc, rfl⟩) h, hs', foldl_applyCommit_twice hnd]

/-- Right after a commit for distinct plans, committing for the same plans the same steps and the
same matches up to order succeeds, keeps the plans, and keeps each plan's matches up to order. -/
theorem commitMatchingAll_again_perm (hnd : (commits.map (·.plan)).Nodup)
    {commits' : List MatchingCommit}
    (hrel : List.Forall₂ (fun c' c => c'.plan = c.plan ∧ c'.steps = c.steps ∧
      c'.assignments.Perm c.assignments) commits' commits)
    {u : Unit} (h : (commitMatchingAll commits).run s = .ok u s') :
    ∃ s'', (commitMatchingAll commits').run s' = .ok () s'' ∧ s''.plans = s'.plans ∧
      ∀ x, (s''.jobMatchesOf x).Perm (s'.jobMatchesOf x) := by
  have hmatched : ∀ c' ∈ commits', ∃ c ∈ commits, c'.plan = c.plan ∧ c'.steps = c.steps ∧
      c'.assignments.Perm c.assignments := fun c' hc' => exists_of_forall₂_right hrel.flip hc'
  have hnd' : (commits'.map (·.plan)).Nodup := by
    rw [map_eq_of_forall₂ (hrel.imp fun _ _ hr => hr.1)]
    exact hnd
  have hok := commitMatchingAll_after hnd (fun c' hc' => by
    obtain ⟨c, hc, hplan, -⟩ := hmatched c' hc'
    exact ⟨c, hc, hplan.symm⟩) h
  obtain ⟨hplans, hmatches⟩ := commitMatchingAll_ok hnd h
  obtain ⟨-, hmatches'⟩ := commitMatchingAll_ok hnd' hok
  refine ⟨_, hok, commitMatchingAll_plans (fun c' hc' p hp hpc => ?_) hok, fun x => ?_⟩
  · obtain ⟨c, hc, hplan, hsteps, -⟩ := hmatched c' hc'
    rw [hplans] at hp
    obtain ⟨q, -, rfl⟩ := List.mem_map.1 hp
    have hid : (((commits.find? (·.plan == q.id)).map fun c => { q with steps := c.steps }).getD q).id =
        q.id := by
      cases commits.find? (·.plan == q.id) <;> rfl
    have hfind : commits.find? (·.plan == q.id) = some c := by
      rw [← hid, hpc, hplan]
      exact find?_plan_of_mem hnd hc
    rw [hfind]
    exact hsteps.symm
  · rw [hmatches']
    cases hfind' : commits'.find? (·.plan == x) with
    | none => exact List.Perm.refl _
    | some c' =>
      obtain ⟨c, hc, hplan, -, hperm⟩ := hmatched c' (List.mem_of_find?_eq_some hfind')
      have hx : c'.plan = x := by simpa using List.find?_some hfind'
      rw [hmatches, ← hx, hplan, find?_plan_of_mem hnd hc]
      exact hperm

end Commit

end PlanStore

end Fabrication
