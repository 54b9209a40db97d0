import Fabrication.Proofs.Store
import Fabrication.Service

/-!
# What the operations of the plan service do and keep

An operation of the service reads the store, works out its result and writes it with one
store write. The building blocks are read back first: a lifted computation of the planner
changes nothing (`ServiceOp.lift_ok`), and `Service.write` changes the store only, as the store
write does (`Service.write_ok`).

An operation `Keeps f` when every service it leaves, having succeeded or failed, agrees on `f`
with the one it started from; it `Reads` the service when it keeps the world and the store;
it is `Clean` when it keeps the world and `FailsCleanly`, a failure leaving the store it
found. Reading and then doing what is clean is clean, and so is a store write that fails
cleanly followed by the answer. Every operation of the service is built that way, so every
failed operation leaves the store as it was (`op_failure_keeps_store`).

Last, the operations whose writes say all they do are read back: creating a plan saves it,
deleting a plan deletes it, and computing profit replaces profit matches.
-/

namespace Fabrication

theorem Service.run_write {α : Type} (w : StoreWrite α) (s : Service) :
    (Service.write w).run s =
      match w.run s.store with
      | .ok a store => .ok a { s with store }
      | .error e store => .error (.rejected e) { s with store } := rfl

namespace ServiceOp

variable {α β : Type} {s t : Service}

theorem lift_ok {o : Outcome α} {a : α} (h : (lift o).run s = .ok a t) : o = .ok a ∧ t = s := by
  cases o with
  | ok b => cases h; exact ⟨rfl, rfl⟩
  | error e => cases h

theorem lift_error {o : Outcome α} {e : Failure} (h : (lift o).run s = .error e t) :
    o = .error e ∧ t = s := by
  cases o with
  | ok b => cases h
  | error e' => cases h; exact ⟨rfl, rfl⟩

/-- An operation whose answer is set aside succeeded when the operation did. -/
theorem ok_of_discard {x : ServiceOp α} {u : Unit} (h : (x >>= fun _ => pure ()).run s = .ok u t) :
    ∃ a, x.run s = .ok a t := by
  obtain ⟨a, t', hx, hp⟩ := EStateM.ok_of_bind h
  cases hp
  exact ⟨a, hx⟩

/-- An operation keeps `f` when every service it leaves, having succeeded or failed, agrees on
`f` with the one it started from. -/
def Keeps {γ : Type} (f : Service → γ) (x : ServiceOp α) : Prop :=
  ∀ s, f (Service.after (x.run s)) = f s

/-- An operation fails cleanly when, failing, it leaves the store it found. -/
def FailsCleanly (x : ServiceOp α) : Prop := ∀ s e t, x.run s = .error e t → t.store = s.store

section Keeps

variable {γ : Type} {f : Service → γ}

theorem keeps_pure (a : α) : Keeps f (pure a : ServiceOp α) := fun _ => rfl

theorem keeps_get : Keeps f (get : ServiceOp Service) := fun _ => rfl

theorem keeps_lift (o : Outcome α) : Keeps f (lift o) := by
  intro s
  cases o <;> rfl

theorem keeps_modify {g : Service → Service} (hg : ∀ s, f (g s) = f s) :
    Keeps f (modify g : ServiceOp PUnit) := hg

theorem Keeps.bind {x : ServiceOp α} {k : α → ServiceOp β} (hx : Keeps f x)
    (hk : ∀ a, Keeps f (k a)) : Keeps f (x >>= k) := by
  intro s
  have hs := hx s
  rw [EStateM.run_bind]
  split
  · rename_i a t heq
    rw [heq] at hs
    exact (hk a t).trans hs
  · rename_i e t heq
    rw [heq] at hs
    exact hs

/-- A write changes the store only. -/
theorem keeps_write {w : StoreWrite α} (hf : ∀ s store, f { s with store } = f s) :
    Keeps f (Service.write w) := by
  intro s
  rw [Service.run_write]
  split <;> exact hf s _

end Keeps

theorem FailsCleanly.of_keeps {x : ServiceOp α} (hx : Keeps Service.store x) : FailsCleanly x := by
  intro s e t h
  have hs := hx s
  rw [h] at hs
  exact hs

/-- An operation reads the service when every service it leaves has the world and the store it
found. -/
def Reads (x : ServiceOp α) : Prop := Keeps Service.world x ∧ Keeps Service.store x

/-- An operation is clean when it keeps the world and, failing, leaves the store it found. -/
def Clean (x : ServiceOp α) : Prop := Keeps Service.world x ∧ FailsCleanly x

theorem reads_get : Reads (get : ServiceOp Service) := ⟨keeps_get, keeps_get⟩

theorem reads_lift (o : Outcome α) : Reads (lift o) := ⟨keeps_lift o, keeps_lift o⟩

/-- Handing out identifiers reads the service. -/
theorem reads_setSupply (supply : IdSupply) :
    Reads (modify fun s => { s with supply } : ServiceOp PUnit) :=
  ⟨keeps_modify fun _ => rfl, keeps_modify fun _ => rfl⟩

/-- Reading the service and then doing what is clean is clean. -/
theorem Reads.bind_clean {x : ServiceOp α} {k : α → ServiceOp β} (hx : Reads x)
    (hk : ∀ a, Clean (k a)) : Clean (x >>= k) := by
  refine ⟨hx.1.bind fun a => (hk a).1, ?_⟩
  intro s e t h
  rcases EStateM.error_of_bind h with h | ⟨a, u, ha, h⟩
  · exact FailsCleanly.of_keeps hx.2 s e t h
  · have hu := hx.2 s
    rw [ha] at hu
    exact ((hk a).2 u e t h).trans hu

/-- Nothing can fail after the last step of an operation has succeeded. -/
theorem Clean.bind_pure {x : ServiceOp α} (hx : Clean x) (g : α → β) :
    Clean (x >>= fun a => pure (g a)) := by
  refine ⟨hx.1.bind fun a => keeps_pure (g a), ?_⟩
  intro s e t h
  rcases EStateM.error_of_bind h with h | ⟨a, u, -, h⟩
  · exact hx.2 s e t h
  · cases h

end ServiceOp

namespace Service

variable {α : Type} {s t : Service}

theorem write_ok {w : StoreWrite α} {a : α} (h : (write w).run s = .ok a t) :
    ∃ store, w.run s.store = .ok a store ∧ t = { s with store } := by
  rw [run_write] at h
  split at h
  · rename_i a' store hw
    cases h
    exact ⟨store, hw, rfl⟩
  · cases h

/-- A store write that fails cleanly is clean. -/
theorem write_clean {w : StoreWrite α} (hw : PlanStore.FailsCleanly w) :
    ServiceOp.Clean (write w) := by
  refine ⟨ServiceOp.keeps_write fun _ _ => rfl, ?_⟩
  intro s e t h
  rw [run_write] at h
  split at h
  · cases h
  · rename_i e' store hrun
    cases h
    exact hw s.store e' store hrun

section Clean

open ServiceOp

theorem createPlan_clean (plan : Plan) (operators : List Nat) :
    Clean (createPlan plan operators) := by
  unfold createPlan
  refine reads_get.bind_clean fun s => ?_
  refine (reads_lift _).bind_clean fun x => ?_
  refine (reads_setSupply _).bind_clean fun _ => ?_
  exact (write_clean (PlanStore.savePlan_failsCleanly _)).bind_pure _

theorem updateStep_clean (planId stepId : Ident) (edit : StepEdit) (operators : List Nat) :
    Clean (updateStep planId stepId edit operators) := by
  unfold updateStep
  refine reads_get.bind_clean fun s => ?_
  refine (reads_lift _).bind_clean fun plan => ?_
  refine (reads_lift _).bind_clean fun steps => ?_
  refine (reads_lift _).bind_clean fun pinned => ?_
  refine (reads_lift _).bind_clean fun recalc => ?_
  refine (reads_lift _).bind_clean fun sched => ?_
  refine (reads_lift _).bind_clean fun timed => ?_
  refine (reads_lift _).bind_clean fun x => ?_
  refine (reads_setSupply _).bind_clean fun _ => ?_
  exact (write_clean (PlanStore.commitRecalculation_failsCleanly _ _)).bind_pure _

theorem deletePlan_clean (planId : Ident) : Clean (deletePlan planId) :=
  write_clean (PlanStore.deletePlan_failsCleanly planId)

theorem matchJobs_clean (scope : MatchScope) : Clean (matchJobs scope) := by
  unfold matchJobs
  refine reads_get.bind_clean fun s => ?_
  refine (reads_lift _).bind_clean fun x => ?_
  exact (write_clean (PlanStore.commitMatchingAll_failsCleanly _)).bind_pure _

theorem matchPlanJobs_clean (planId : Ident) (characters : List Nat) (since : Int) :
    Clean (matchPlanJobs planId characters since) := by
  unfold matchPlanJobs
  refine reads_get.bind_clean fun s => ?_
  refine (reads_lift _).bind_clean fun plan => ?_
  refine (reads_lift _).bind_clean fun x => ?_
  exact (write_clean (PlanStore.commitMatchingAll_failsCleanly _)).bind_pure _

theorem computeProfit_clean (req : ProfitRequest) : Clean (computeProfit req) := by
  unfold computeProfit
  refine reads_get.bind_clean fun s => ?_
  refine (reads_lift _).bind_clean fun report => ?_
  exact (write_clean (PlanStore.replaceProfitMatches_failsCleanly _ _ _ _)).bind_pure _

/-- Every operation of the service is clean. -/
theorem op_clean (r : Request) : Clean r.op := by
  cases r with
  | createPlan plan operators => exact (createPlan_clean plan operators).bind_pure _
  | updateStep plan step edit operators =>
    exact (updateStep_clean plan step edit operators).bind_pure _
  | deletePlan plan => exact deletePlan_clean plan
  | matchJobs scope => exact (matchJobs_clean scope).bind_pure _
  | matchPlanJobs plan characters since =>
    exact (matchPlanJobs_clean plan characters since).bind_pure _
  | computeProfit request => exact (computeProfit_clean request).bind_pure _

/-- An operation of the service that fails, whatever the cause (a refused request or edit, a
missing plan or step, an unknown facility, a cycle, the depth limit, a missing producer, an
overflow, or a write the store refuses or cannot do), leaves the plans, the job matches and
the profit matches of the store exactly as they were. -/
theorem op_failure_keeps_store (r : Request) (s : Service) (e : Failure) (t : Service)
    (h : r.op.run s = .error e t) :
    t.store.plans = s.store.plans ∧ t.store.jobMatches = s.store.jobMatches ∧
      t.store.profitMatches = s.store.profitMatches := by
  have hstore : t.store = s.store := (op_clean r).2 s e t h
  exact ⟨by rw [hstore], by rw [hstore], by rw [hstore]⟩

/-- Deleting a plan that is not there filters the plans before it is refused, and the filter
removes nothing. -/
theorem op_failure_keeps_store_missingPlan :
    ∃ e t, (Request.deletePlan (.given 2)).op.run
        { store := { plans := [{ id := .given 1 }] } } = .error e t ∧
      t.store.plans = [{ id := .given 1 }] ∧ t.store.jobMatches = [] ∧
        t.store.profitMatches = [] :=
  ⟨_, _, rfl,
    op_failure_keeps_store (.deletePlan (.given 2)) { store := { plans := [{ id := .given 1 }] } }
      _ _ rfl⟩

end Clean

/-- Creating a plan saves the plan with its calculated steps, and changes nothing else but the
supply of identifiers. -/
theorem createPlan_ok {plan : Plan} {operators : List Nat} {c : Calculation}
    (h : (createPlan plan operators).run s = .ok c t) :
    t.world = s.world ∧ ∃ p, (PlanStore.savePlan p).run s.store = .ok () t.store := by
  unfold createPlan at h
  rw [EStateM.run_bind, EStateM.run_get] at h
  dsimp only at h
  obtain ⟨x, s₁, hcalc, h₁⟩ := EStateM.ok_of_bind h
  obtain ⟨-, rfl⟩ := ServiceOp.lift_ok hcalc
  obtain ⟨_, s₂, hmod, h₂⟩ := EStateM.ok_of_bind h₁
  cases hmod
  obtain ⟨_, s₃, hw, h₃⟩ := EStateM.ok_of_bind h₂
  obtain ⟨store, hsave, rfl⟩ := write_ok hw
  cases h₃
  exact ⟨rfl, _, hsave⟩

theorem deletePlan_ok {planId : Ident} {u : Unit} (h : (deletePlan planId).run s = .ok u t) :
    t.world = s.world ∧ (PlanStore.deletePlan planId).run s.store = .ok () t.store := by
  obtain ⟨store, hw, rfl⟩ := write_ok h
  exact ⟨rfl, hw⟩

/-- Computing profit computes the report from the world and writes its allocations in place of
the user's profit matches of the asked products sold in the window. -/
theorem computeProfit_ok {req : ProfitRequest} {report : ProfitReport}
    (h : (computeProfit req).run s = .ok report t) :
    Fabrication.computeProfit s.config req s.world = .ok report ∧
      (PlanStore.replaceProfitMatches req.user req.window req.materials report.allocations).run
        s.store = .ok () t.store ∧
      t = { s with store := t.store } := by
  unfold computeProfit at h
  rw [EStateM.run_bind, EStateM.run_get] at h
  obtain ⟨r, s₁, hr, h₁⟩ := EStateM.ok_of_bind h
  obtain ⟨hr, rfl⟩ := ServiceOp.lift_ok hr
  obtain ⟨_, s₂, hw, h₂⟩ := EStateM.ok_of_bind h₁
  obtain ⟨store, hreplace, rfl⟩ := write_ok hw
  cases h₂
  exact ⟨ok_of_ofFault hr, hreplace, rfl⟩

end Service

end Fabrication
