import Fabrication.Proofs.Store
import Fabrication.Proofs.Matching.Jobs

/-!
# Sound job claims of a plan store

`PlanStore.ClaimsOnce jobs s` says that the matches a store keeps for its plans claim each
job once per owner and only for a step that could have run it: no job is matched twice across
the plans of an owner, and each match names a step of its plan with the job's recipe and
activity, for a job of `jobs` that is neither cancelled nor reverted.

It follows from the invariant `PlanStore.ClaimsSound`: plan identifiers are distinct, the
matches of a plan name distinct jobs, two plans of one owner share no job, and each match is
grounded in its plan's steps. Two lemmas carry the invariant across every write the service
makes: `ClaimsSound.frame` for writes that keep or drop a plan's matches, and
`ClaimsSound.commit` for matching commits.
-/

namespace Fabrication

namespace PlanStore

/-- The job claims of a store are sound over the jobs `jobs` when plan identifiers are
distinct, the jobs matched to one plan are distinct, two plans of one owner share no job,
and every match is grounded in the steps of its plan. -/
structure ClaimsSound (jobs : List Job) (s : PlanStore) : Prop where
  ids : (s.plans.map (·.id)).Nodup
  distinct : ∀ p ∈ s.plans, ((s.jobMatchesOf p.id).map (·.job)).Nodup
  disjoint : ∀ p ∈ s.plans, ∀ q ∈ s.plans, p.owner = q.owner → p.id ≠ q.id →
    ∀ m ∈ s.jobMatchesOf p.id, ∀ m' ∈ s.jobMatchesOf q.id, m.job ≠ m'.job
  grounded : ∀ p ∈ s.plans, ∀ m ∈ s.jobMatchesOf p.id, m.Grounded jobs (p.steps.map Step.ident)

variable {jobs : List Job} {s s' : PlanStore}

theorem claimsSound_empty (jobs : List Job) : ClaimsSound jobs {} :=
  ⟨List.nodup_nil, by simp, by simp, by simp⟩

/-- Sound claims give each owner distinct jobs across all of its plans. -/
theorem ClaimsSound.owner_nodup (h : ClaimsSound jobs s) (user : Nat) :
    ((s.plans.filter (·.owner == user)).flatMap fun p =>
      (s.jobMatchesOf p.id).map (·.job)).Nodup := by
  rw [List.nodup_flatMap]
  refine ⟨fun p hp => h.distinct p (List.mem_filter.1 hp).1, ?_⟩
  have hpw : (s.plans.filter (·.owner == user)).Pairwise (fun p q => p.id ≠ q.id) :=
    (List.pairwise_map.1 h.ids).filter _
  refine hpw.imp_of_mem fun {p q} hp hq hne => ?_
  obtain ⟨hp, hpu⟩ := List.mem_filter.1 hp
  obtain ⟨hq, hqu⟩ := List.mem_filter.1 hq
  intro x hxp hxq
  obtain ⟨m, hm, rfl⟩ := List.mem_map.1 hxp
  obtain ⟨m', hm', hmm⟩ := List.mem_map.1 hxq
  exact h.disjoint p hp q hq (by rw [beq_iff_eq.1 hpu, beq_iff_eq.1 hqu]) hne m hm m' hm' hmm.symm

/-- The job matches of a store claim each job once: across all plans of an owner no job is
matched twice, and each match of a plan names a step of the plan with the job's recipe and
activity, for a job of `jobs` that is neither cancelled nor reverted. -/
def ClaimsOnce (jobs : List Job) (s : PlanStore) : Prop :=
  (∀ user, ((s.plans.filter (·.owner == user)).flatMap fun p =>
      (s.jobMatchesOf p.id).map (·.job)).Nodup) ∧
    ∀ p ∈ s.plans, ∀ m ∈ s.jobMatchesOf p.id, ∃ st ∈ p.steps, st.id = m.step ∧
      ∃ j ∈ jobs, j.id = m.job ∧ st.recipe = j.recipe ∧ st.activity = j.activity ∧
        j.status ≠ .cancelled ∧ j.status ≠ .reverted

theorem ClaimsSound.claimsOnce (h : ClaimsSound jobs s) : ClaimsOnce jobs s := by
  refine ⟨h.owner_nodup, fun p hp m hm => ?_⟩
  obtain ⟨j, hj, hid, hmat, hin⟩ := h.grounded p hp m hm
  obtain ⟨st, hst, hident⟩ := List.mem_map.1 hin
  simp only [Step.ident, Prod.mk.injEq] at hident
  simp only [Job.isMatchable, Bool.and_eq_true, bne_iff_ne, ne_eq] at hmat
  exact ⟨st, hst, hident.1, j, hj, hid, hident.2.1, hident.2.2, hmat.1, hmat.2⟩

/-- Claims stay sound across a write after which every plan either has no matches or is a
plan of before under its identifier and owner, with its matches and at least its step
identities. -/
theorem ClaimsSound.frame (h : ClaimsSound jobs s) (hids : (s'.plans.map (·.id)).Nodup)
    (hplans : ∀ q' ∈ s'.plans, s'.jobMatchesOf q'.id = [] ∨
      ∃ q ∈ s.plans, q.id = q'.id ∧ q.owner = q'.owner ∧
        (∀ x ∈ q.steps.map Step.ident, x ∈ q'.steps.map Step.ident) ∧
        s'.jobMatchesOf q'.id = s.jobMatchesOf q.id) :
    ClaimsSound jobs s' := by
  refine ⟨hids, ?_, ?_, ?_⟩
  · intro p hp
    rcases hplans p hp with h0 | ⟨q, hq, -, -, -, hm⟩
    · simp [h0]
    · rw [hm]
      exact h.distinct q hq
  · intro p hp q hq hown hne m hm m' hm'
    rcases hplans p hp with h0 | ⟨p₀, hp₀, hpid, hpown, -, hpm⟩
    · simp [h0] at hm
    rcases hplans q hq with h0 | ⟨q₀, hq₀, hqid, hqown, -, hqm⟩
    · simp [h0] at hm'
    rw [hpm] at hm
    rw [hqm] at hm'
    exact h.disjoint p₀ hp₀ q₀ hq₀ (by rw [hpown, hqown, hown]) (by rw [hpid, hqid]; exact hne)
      m hm m' hm'
  · intro p hp m hm
    rcases hplans p hp with h0 | ⟨q, hq, -, -, hsteps, hqm⟩
    · simp [h0] at hm
    rw [hqm] at hm
    exact (h.grounded q hq m hm).mono hsteps

section Commit

variable {cs : List MatchingCommit}

/-- After committing matches for distinct plans, each plan is a plan of before under its
identifier and owner, with the steps and matches of the commit naming it if there is one,
and as it was otherwise. -/
theorem commitMatchingAll_view (hnd : (cs.map (·.plan)).Nodup)
    (hok : (commitMatchingAll cs).run s = .ok () s') :
    ∀ q' ∈ s'.plans, ∃ q ∈ s.plans, q'.id = q.id ∧ q'.owner = q.owner ∧
      ((∃ c ∈ cs, c.plan = q.id ∧ q'.steps = c.steps ∧ s'.jobMatchesOf q.id = c.assignments) ∨
        ((∀ c ∈ cs, c.plan ≠ q.id) ∧ q'.steps = q.steps ∧
          s'.jobMatchesOf q.id = s.jobMatchesOf q.id)) := by
  obtain ⟨hplans, hmatch⟩ := commitMatchingAll_ok hnd hok
  intro q' hq'
  rw [hplans, List.mem_map] at hq'
  obtain ⟨q, hq, rfl⟩ := hq'
  refine ⟨q, hq, ?_⟩
  rw [hmatch]
  cases hc : cs.find? (·.plan == q.id) with
  | some c =>
    have hcq : c.plan = q.id := by simpa using List.find?_some hc
    exact ⟨rfl, rfl, .inl ⟨c, List.mem_of_find?_eq_some hc, hcq, rfl, rfl⟩⟩
  | none =>
    have hnone : ∀ c ∈ cs, c.plan ≠ q.id := by simpa using List.find?_eq_none.1 hc
    exact ⟨rfl, rfl, .inr ⟨hnone, rfl, rfl⟩⟩

theorem commitMatchingAll_ids (hnd : (cs.map (·.plan)).Nodup)
    (hok : (commitMatchingAll cs).run s = .ok () s') : s'.plans.map (·.id) = s.plans.map (·.id) := by
  rw [(commitMatchingAll_ok hnd hok).1, List.map_map]
  apply List.map_congr_left
  intro q _
  simp only [Function.comp_apply]
  cases cs.find? (·.plan == q.id) <;> rfl

/-- Claims stay sound across a matching commit for distinct plans whose matches are distinct
and grounded in the committed steps, when two commits share no job and a commit shares no
job with a plan of the same owner that no commit names. -/
theorem ClaimsSound.commit (h : ClaimsSound jobs s) (hnd : (cs.map (·.plan)).Nodup)
    (hok : (commitMatchingAll cs).run s = .ok () s')
    (hdist : ∀ c ∈ cs, (c.assignments.map (·.job)).Nodup)
    (hground : ∀ c ∈ cs, ∀ m ∈ c.assignments, m.Grounded jobs (c.steps.map Step.ident))
    (hdisj : ∀ c ∈ cs, ∀ c' ∈ cs, c.plan ≠ c'.plan →
      ∀ m ∈ c.assignments, ∀ m' ∈ c'.assignments, m.job ≠ m'.job)
    (hothers : ∀ c ∈ cs, ∀ p ∈ s.plans, p.id = c.plan → ∀ q ∈ s.plans, q.owner = p.owner →
      (∀ c' ∈ cs, c'.plan ≠ q.id) → ∀ m ∈ c.assignments, ∀ m' ∈ s.jobMatchesOf q.id,
        m.job ≠ m'.job) :
    ClaimsSound jobs s' := by
  have hview := commitMatchingAll_view hnd hok
  refine ⟨(commitMatchingAll_ids hnd hok) ▸ h.ids, ?_, ?_, ?_⟩
  · intro p' hp'
    obtain ⟨q, hq, hid, -, ⟨c, hc, -, -, hm⟩ | ⟨-, -, hm⟩⟩ := hview p' hp'
    · rw [hid, hm]
      exact hdist c hc
    · rw [hid, hm]
      exact h.distinct q hq
  · intro p' hp' q' hq' hown hne m hm m' hm'
    obtain ⟨p, hp, hpid, hpown, hpv⟩ := hview p' hp'
    obtain ⟨q, hq, hqid, hqown, hqv⟩ := hview q' hq'
    rw [hpid] at hm hne
    rw [hqid] at hm' hne
    have howner : p.owner = q.owner := by rw [← hpown, ← hqown, hown]
    rcases hpv with ⟨c, hc, hcp, -, hpm⟩ | ⟨hpn, -, hpm⟩ <;>
      rcases hqv with ⟨c', hc', hcq, -, hqm⟩ | ⟨hqn, -, hqm⟩ <;> rw [hpm] at hm <;> rw [hqm] at hm'
    · exact hdisj c hc c' hc' (by rw [hcp, hcq]; exact hne) m hm m' hm'
    · exact hothers c hc p hp hcp.symm q hq howner.symm hqn m hm m' hm'
    · exact (hothers c' hc' q hq hcq.symm p hp howner hpn m' hm' m hm).symm
    · exact h.disjoint p hp q hq howner hne m hm m' hm'
  · intro p' hp' m hm
    obtain ⟨q, hq, hid, -, ⟨c, hc, -, hsteps, hm'⟩ | ⟨-, hsteps, hm'⟩⟩ := hview p' hp'
    · rw [hid, hm'] at hm
      rw [hsteps]
      exact hground c hc m hm
    · rw [hid, hm'] at hm
      rw [hsteps]
      exact h.grounded q hq m hm

end Commit

end PlanStore

end Fabrication
