import Fabrication.Proofs.Service.JobClaims
import Fabrication.Proofs.Matching.WellFormed
import Fabrication.Proofs.Calculation.WellFormed

/-!
# The plan service keeps its plans well formed

The store keeps steps that are sound (`Step.Sound`): well formed, made before the mark of the
service's supply of identifiers, and each making a run a number of units that one of the
world's recipes names. Each store write puts in the plans only plans it had or plans with the
steps it writes (`PlanStore.Writes`), and a write that fails leaves the store it found. Each
operation of the service reads the store, runs the planner and writes its result, so it is
read through the service it leaves (`Service.after`), one part at a time: a lifted
computation that fails leaves the service as it was, setting the supply moves its mark forward,
and the steps each operation writes are sound, since calculating, editing, recalculating,
scheduling and matching keep steps sound. Matching needs one bound of the world: all its
jobs' runs together, times the units any of its recipes makes a run, stay within a count
(`World.Bounded`); otherwise the units of an adapted step would saturate and its runs no
longer follow its quantity.

By induction over the requests, every plan stored by a run from an empty store is well
formed (`run_plans_wellFormed`).
-/

namespace Fabrication

namespace Step

/-- Steps as the store keeps them: well formed, made before the supply's mark, each making a
run a number of units the world's recipes name, or one. -/
structure Sound (recipes : List Recipe) (mark : Nat) (steps : List Step) : Prop where
  wellFormed : WellFormed steps
  minted : Minted mark steps
  units : ∀ s ∈ steps, RunUnits recipes s.out

theorem Sound.mono {recipes : List Recipe} {n n' : Nat} {steps : List Step}
    (h : Sound recipes n steps) (hn : n ≤ n') : Sound recipes n' steps :=
  ⟨h.wellFormed, h.minted.mono hn, h.units⟩

end Step

/-- All the runs of a world's jobs, times the units any of its recipes makes a run, stay
within a count. -/
def World.Bounded (w : World) : Prop := ∀ u, RunUnits w.recipes u → w.jobRuns * u ≤ Count.top

/-- Matching sound steps against the jobs of a bounded world gives sound steps. -/
theorem Step.Sound.matchPlan {config : EngineConfig} {plan : Plan} {book : RecipeBook}
    {scope : MatchScope} {claimed claimed' : List Nat} {world : World} {res : Resolver}
    {o : MatchOutcome} {n : Nat} (hb : world.Bounded) (hp : Step.Sound world.recipes n plan.steps)
    (h : matchPlan config plan book scope claimed world res = .ok (o, claimed')) :
    Step.Sound world.recipes n o.steps := by
  obtain ⟨hw, hmint, hout⟩ := matchPlan_wellFormed hp.wellFormed hp.minted
    (fun s hs _ => hb _ (hp.units s hs)) h
  refine ⟨hw, Step.Minted.of_mintViews hmint hp.minted, fun s hs => ?_⟩
  have hmem : s.out ∈ plan.steps.map Step.out := hout ▸ List.mem_map_of_mem hs
  obtain ⟨t, ht, hts⟩ := List.mem_map.1 hmem
  exact hts ▸ hp.units t ht

namespace PlanStore

/-- A write puts in the plans only steps with `Q`: every plan after it is a plan from before
it or has steps with `Q`. -/
def Writes {α : Type} (Q : List Step → Prop) (w : StoreWrite α) : Prop :=
  ∀ s a s', w.run s = .ok a s' → ∀ p ∈ s'.plans, p ∈ s.plans ∨ Q p.steps

theorem writes_savePlan (p : Plan) : Writes (· = p.steps) (savePlan p) := by
  intro s a s' h q hq
  rcases (mem_savePlan h).1 hq with rfl | ⟨hq, -⟩
  · exact .inr rfl
  · exact .inl hq

theorem writes_deletePlan (Q : List Step → Prop) (id : Ident) : Writes Q (deletePlan id) := by
  intro s a s' h q hq
  rw [(deletePlan_ok h).1] at hq
  exact .inl (List.mem_filter.1 hq).1

theorem writes_commitRecalculation (id : Ident) (steps : List Step) :
    Writes (· = steps) (commitRecalculation id steps) := by
  intro s a s' h q hq
  rw [(commitRecalculation_ok h).1, List.mem_map] at hq
  obtain ⟨p, hp, rfl⟩ := hq
  split
  · exact .inr rfl
  · exact .inl hp

theorem writes_commitMatchingAll (commits : List MatchingCommit) :
    Writes (fun steps => ∃ c ∈ commits, steps = c.steps) (commitMatchingAll commits) := by
  intro s a s' h
  rw [run_commitMatchingAll] at h
  split at h
  · cases h
  split at h
  · cases h
  cases h
  refine foldl_invariant (fun t : PlanStore =>
    ∀ p ∈ t.plans, p ∈ s.plans ∨ ∃ c ∈ commits, p.steps = c.steps) (fun p hp => .inl hp) ?_
  intro t c hc ht p hp
  obtain ⟨q, hq, rfl⟩ := List.mem_map.1 hp
  split
  · exact .inr ⟨c, hc, rfl⟩
  · exact ht q hq

theorem writes_replaceProfitMatches (Q : List Step → Prop) (user : Nat) (window : Window)
    (materials : List Nat) (new : List ProfitMatch) :
    Writes Q (replaceProfitMatches user window materials new) := by
  intro s a s' h p hp
  rw [replaceProfitMatches_ok h] at hp
  exact .inl hp

end PlanStore

namespace Service

variable {α β : Type} {s t : Service}

/-- The stored plans of a service have sound steps, against its world's recipes and the mark
of its supply. -/
def PlansSound (s : Service) : Prop :=
  ∀ p ∈ s.store.plans, Step.Sound s.world.recipes s.supply.next p.steps

section After

theorem after_get_bind (k : Service → ServiceOp α) (s : Service) :
    after ((get >>= k).run s) = after ((k s).run s) := rfl

theorem after_modify_bind (f : Service → Service) (k : PUnit → ServiceOp α) (s : Service) :
    after ((modify f >>= k).run s) = after ((k ⟨⟩).run (f s)) := rfl

theorem after_bind_pure (x : ServiceOp α) (b : β) (s : Service) :
    after ((x >>= fun _ => pure b).run s) = after (x.run s) := by
  rw [EStateM.run_bind]
  cases x.run s <;> rfl

/-- What holds of the service when a lifted computation fails, and of what the rest of the
operation leaves when it succeeds, holds of what the operation leaves. -/
theorem after_lift_bind {P : Service → Prop} {o : Outcome α} {k : α → ServiceOp β}
    (hs : P s) (hk : ∀ a, o = .ok a → P (after ((k a).run s))) :
    P (after ((ServiceOp.lift o >>= k).run s)) := by
  cases o with
  | error e => exact hs
  | ok a => exact hk a rfl

/-- A write to the store of a service with sound plans leaves sound plans, when it writes
only sound steps, the service's world is the one the plans were sound in, and its supply's
mark has only moved forward. -/
theorem PlansSound.write {Q : List Step → Prop} {w : StoreWrite α} (hs : s.PlansSound)
    (hworld : t.world = s.world) (hstore : t.store = s.store)
    (hle : s.supply.next ≤ t.supply.next) (hw : PlanStore.FailsCleanly w)
    (hQ : PlanStore.Writes Q w)
    (hsound : ∀ steps, Q steps → Step.Sound s.world.recipes t.supply.next steps) :
    (after ((write w).run t)).PlansSound := by
  have hplans : ∀ store : PlanStore, (store = t.store ∨ ∃ a, w.run t.store = .ok a store) →
      ({ t with store } : Service).PlansSound := by
    rintro store hstore' p hp
    rw [hworld]
    rcases hstore' with rfl | ⟨a, hrun⟩
    · exact (hs p (hstore ▸ hp)).mono hle
    · rcases hQ _ _ _ hrun p hp with hp | hq
      · exact (hs p (hstore ▸ hp)).mono hle
      · exact hsound _ hq
  rw [run_write]
  cases hrun : w.run t.store with
  | ok a store => exact hplans store (.inr ⟨a, hrun⟩)
  | error e store => exact hplans store (.inl (hw _ _ _ hrun))

end After

section Operations

/-- Creating a plan keeps the stored plans sound: the calculated steps are sound at the mark
the calculation leaves. -/
theorem plansSound_createPlan (hs : s.PlansSound) (plan : Plan) (operators : List Nat) :
    (after ((createPlan plan operators).run s)).PlansSound := by
  unfold createPlan
  rw [after_get_bind]
  refine after_lift_bind hs fun ⟨c, τ⟩ hcalc => ?_
  obtain ⟨hwf, hmint, hle, hunits⟩ := calculate_wellFormed hcalc
  rw [after_modify_bind, after_bind_pure]
  exact hs.write rfl rfl hle (PlanStore.savePlan_failsCleanly _) (PlanStore.writes_savePlan _)
    fun steps hsteps => hsteps ▸ ⟨hwf, hmint, hunits⟩

open Step in
/-- Updating a step keeps the stored plans sound: editing, recalculating and attaching
durations keep the loaded plan's steps well formed and change nothing that freshness or the
units of a run read, and splitting keeps them sound at the mark it leaves. -/
theorem plansSound_updateStep (hs : s.PlansSound) (planId stepId : Ident) (edit : StepEdit)
    (operators : List Nat) :
    (after ((updateStep planId stepId edit operators).run s)).PlansSound := by
  unfold updateStep
  rw [after_get_bind]
  refine after_lift_bind hs fun plan hplan => ?_
  have hp := hs plan (PlanStore.loadPlan_ok (ok_of_ofPlan hplan)).1
  refine after_lift_bind hs fun edited hedit => ?_
  obtain ⟨hwe, hview⟩ := applyEdit_wellFormed hp.wellFormed hedit
  refine after_lift_bind hs fun pinned _ => ?_
  refine after_lift_bind hs fun recalc hrecalc => ?_
  have hme : Minted s.supply.next edited :=
    Minted.of_mintViews (map_eq_of_map_view hview mintView fun _ => rfl) hp.minted
  obtain ⟨hwr, hframe⟩ := recalculate_wellFormed hwe.toGrouped hme.copies (ok_of_ofFault hrecalc)
  refine after_lift_bind hs fun sched _ => ?_
  refine after_lift_bind hs fun timed htimed => ?_
  have hviews := attachDurations_views (ok_of_ofFault htimed)
  have hwt : WellFormed timed := hwr.of_views hviews
  have hmint : timed.map mintView = edited.map mintView :=
    (mintViews_of_views hviews).trans (map_eq_of_map_view hframe mintView mintView_sansCounts)
  have hout : timed.map out = plan.steps.map out :=
    (map_eq_of_map_view hviews out fun _ => rfl).trans
      ((map_eq_of_map_view hframe out fun _ => rfl).trans (map_eq_of_map_view hview out fun _ => rfl))
  refine after_lift_bind hs fun ⟨split, τ⟩ hsplit => ?_
  obtain ⟨hws, hms, hle⟩ := splitExcept_wellFormed hwt (Minted.of_mintViews hmint hme) hsplit
  have hunits : ∀ y ∈ split, RunUnits s.world.recipes y.out := fun y hy => by
    obtain ⟨x, hx, hyx⟩ := splitExcept_groupView hwt.toGrouped hsplit y hy
    obtain ⟨z, hz, hzx⟩ := List.mem_map.1 (hout ▸ List.mem_map_of_mem hx : x.out ∈ plan.steps.map out)
    rw [groupView_out hyx, ← hzx]
    exact hp.units z hz
  rw [after_modify_bind, after_bind_pure]
  exact hs.write rfl rfl hle (PlanStore.commitRecalculation_failsCleanly _ _)
    (PlanStore.writes_commitRecalculation _ _) fun steps hsteps => hsteps ▸ ⟨hws, hms, hunits⟩

theorem plansSound_deletePlan (hs : s.PlansSound) (planId : Ident) :
    (after ((deletePlan planId).run s)).PlansSound :=
  hs.write rfl rfl (Nat.le_refl _) (PlanStore.deletePlan_failsCleanly _)
    (PlanStore.writes_deletePlan (fun _ => False) _) fun _ hq => hq.elim

/-- Matching a user's jobs keeps the stored plans sound, over a bounded world: every outcome
of the round is the matching of a stored plan. -/
theorem plansSound_matchJobs (hb : s.world.Bounded) (hs : s.PlansSound) (scope : MatchScope) :
    (after ((matchJobs scope).run s)).PlansSound := by
  unfold matchJobs
  rw [after_get_bind]
  refine after_lift_bind hs fun ⟨outs, claimed⟩ hfold => ?_
  have houts : ∀ o ∈ outs, Step.Sound s.world.recipes s.supply.next o.steps := by
    refine foldlM_invariant (fun acc : List MatchOutcome × List Nat =>
      ∀ o ∈ acc.1, Step.Sound s.world.recipes s.supply.next o.steps) hfold (by simp) ?_
    rintro acc plan acc' hplan hacc hstep o ho
    obtain ⟨⟨o', claimed'⟩, hmatch, hstep⟩ := ok_of_bind hstep
    cases hstep
    rcases List.mem_append.1 ho with ho | ho
    · exact hacc o ho
    · rw [List.mem_singleton.1 ho]
      exact (hs plan (PlanStore.mem_plansForUser.1 hplan).1).matchPlan hb hmatch
  rw [after_bind_pure]
  refine hs.write rfl rfl (Nat.le_refl _) (PlanStore.commitMatchingAll_failsCleanly _)
    (PlanStore.writes_commitMatchingAll _) ?_
  rintro steps ⟨c, hc, rfl⟩
  obtain ⟨o, ho, rfl⟩ := List.mem_map.1 hc
  exact houts o ho

/-- Matching one plan keeps the stored plans sound, over a bounded world. -/
theorem plansSound_matchPlanJobs (hb : s.world.Bounded) (hs : s.PlansSound) (planId : Ident)
    (characters : List Nat) (since : Int) :
    (after ((matchPlanJobs planId characters since).run s)).PlansSound := by
  unfold matchPlanJobs
  rw [after_get_bind]
  refine after_lift_bind hs fun plan hplan => ?_
  have hp := hs plan (PlanStore.loadPlan_ok (ok_of_ofPlan hplan)).1
  refine after_lift_bind hs fun ⟨o, claimed⟩ hmatch => ?_
  rw [after_bind_pure]
  refine hs.write rfl rfl (Nat.le_refl _) (PlanStore.commitMatchingAll_failsCleanly _)
    (PlanStore.writes_commitMatchingAll _) ?_
  rintro steps ⟨c, hc, rfl⟩
  rw [List.mem_singleton.1 hc]
  exact hp.matchPlan hb hmatch

theorem plansSound_computeProfit (hs : s.PlansSound) (req : ProfitRequest) :
    (after ((computeProfit req).run s)).PlansSound := by
  unfold computeProfit
  rw [after_get_bind]
  refine after_lift_bind hs fun report _ => ?_
  rw [after_bind_pure]
  exact hs.write rfl rfl (Nat.le_refl _) (PlanStore.replaceProfitMatches_failsCleanly _ _ _ _)
    (PlanStore.writes_replaceProfitMatches (fun _ => False) _ _ _ _) fun _ hq => hq.elim

end Operations

/-- Every operation keeps the stored plans sound, over a bounded world, whether it succeeds or
fails. -/
theorem perform_plansSound (hb : s.world.Bounded) (hs : s.PlansSound) (r : Request) :
    (s.perform r).PlansSound := by
  unfold perform
  cases r with
  | createPlan plan operators =>
    rw [Request.op, after_bind_pure]
    exact plansSound_createPlan hs plan operators
  | updateStep plan step edit operators =>
    rw [Request.op, after_bind_pure]
    exact plansSound_updateStep hs plan step edit operators
  | deletePlan plan => exact plansSound_deletePlan hs plan
  | matchJobs scope =>
    rw [Request.op, after_bind_pure]
    exact plansSound_matchJobs hb hs scope
  | matchPlanJobs plan characters since =>
    rw [Request.op, after_bind_pure]
    exact plansSound_matchPlanJobs hb hs plan characters since
  | computeProfit request =>
    rw [Request.op, after_bind_pure]
    exact plansSound_computeProfit hs request

/-- A run over a bounded world keeps the stored plans sound. -/
theorem run_plansSound (hb : s.world.Bounded) (hs : s.PlansSound) (requests : List Request) :
    (s.run requests).PlansSound := by
  induction requests generalizing s with
  | nil => exact hs
  | cons r rs ih =>
    have hw : (s.perform r).world = s.world := (op_clean r).1 s
    rw [run_cons]
    exact ih (hw ▸ hb) (perform_plansSound hb hs r)

/-- Every plan the plan service stores, after any requests from an empty store, is well
formed: each step but a copy makes at least one unit a run and has the runs its quantity
needs, the members of a split group share what a group shares, are numbered from zero and
record the group's total runs, each recipe and activity has one unsplit step or one split
group, each copy follows the runs of its recipe's build steps, and step identifiers are
distinct. This holds when all the jobs' runs of the world, times the units any of its
recipes makes a run, stay within a count, so that no adapted step saturates. -/
theorem run_plans_wellFormed (s : Service) (requests : List Request) (hb : s.world.Bounded)
    (hempty : s.store.plans = []) :
    ∀ p ∈ (s.run requests).store.plans, Step.WellFormed p.steps := by
  have hs : s.PlansSound := fun p hp => by
    rw [hempty] at hp
    cases hp
  exact fun p hp => (run_plansSound hb hs requests p hp).wellFormed

/-- A world with one build recipe making one unit a run, and one job of it over three runs. -/
def oneJobWorld : World where
  recipes := [⟨1, .build, [], [⟨1, 1⟩], 60⟩]
  jobs := [{ id := 1, recipe := 1, product := 1, runs := 3 }]

theorem oneJobWorld_bounded : oneJobWorld.Bounded := by
  rintro u (rfl | ⟨r, hr, o, ho, rfl⟩)
  · decide
  · rw [oneJobWorld, List.mem_singleton] at hr
    subst hr
    rw [List.mem_singleton] at ho
    subst ho
    decide

/-- A plan for two units is created over the world of one job, and its owner's jobs are
matched, which adapts the build step to the job's three runs. -/
theorem run_plans_wellFormed_adaptedJob :
    oneJobWorld.Bounded ∧
      ∀ p ∈ (({ world := oneJobWorld } : Service).run
          [.createPlan { id := .given 1, targets := [{ material := 1, quantity := 2 }] } [],
            .matchJobs {}]).store.plans, Step.WellFormed p.steps :=
  ⟨oneJobWorld_bounded, run_plans_wellFormed _ _ oneJobWorld_bounded rfl⟩

end Service

end Fabrication
