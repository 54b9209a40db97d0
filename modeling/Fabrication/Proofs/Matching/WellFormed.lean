import Mathlib
import Fabrication.Proofs.Matching.Jobs
import Fabrication.Proofs.Step.Edit
import Fabrication.Proofs.Step.Restore

/-!
# Matching keeps plans well formed

A matching pass may adapt a step to the runs of the jobs matched to it: the step takes the
matched runs and `runs * out` units, so its runs still fit its quantity as long as that product
does not saturate, which it cannot when all the jobs of the world together, times the units a
run of the step makes, stay within a count (`World.jobRuns`). Adapting changes nothing of a
step but its counts, and no step changes until one is adapted (`MatchState.Adapting`). A
proposed facility correction is keyed by a step's group or by the step itself when it is not
split; moving the steps under such a key moves a whole group or one unsplit step, which keeps
the steps grouped (`underKey_eq_of_group`). After any adaptation or correction the plan is
recalculated, which restores the group totals and the copies; without either, the plan is
left as it was. So matching a well-formed plan gives well-formed steps, with the identifiers,
splits and units a run of the plan's own (`matchPlan_wellFormed`).
-/

namespace Fabrication

/-- The runs of all the jobs of a world, added up. -/
def World.jobRuns (w : World) : Nat := (w.jobs.map (·.runs)).sum

/-- Jobs taken from the world's jobs run at most as many runs as all of them. -/
theorem sum_runs_le_jobRuns {w : World} {taken : List Job} (h : taken.Subperm w.jobs) :
    (taken.map (·.runs)).sum ≤ w.jobRuns := by
  obtain ⟨l, hperm, hsub⟩ := h
  calc (taken.map (·.runs)).sum = (l.map (·.runs)).sum := ((hperm.map _).sum_eq).symm
    _ ≤ w.jobRuns := (hsub.map _).sum_le_sum fun _ _ => Nat.zero_le _

theorem insertSorted_ne_nil (x : Ident) (l : List Ident) : Ident.insertSorted x l ≠ [] := by
  cases l with
  | nil => exact List.cons_ne_nil _ _
  | cons y ys =>
    unfold Ident.insertSorted
    split_ifs <;> exact List.cons_ne_nil _ _

namespace Step

/-- Lists that agree on a view agree on everything the view determines. -/
theorem map_eq_of_map_view {α : Type} {v : Step → Step} {l l' : List Step} (h : l'.map v = l.map v)
    (g : Step → α) (hg : ∀ u, g (v u) = g u) : l'.map g = l.map g := by
  have hcomp : g = g ∘ v := funext fun u => (hg u).symm
  rw [hcomp, ← List.map_map, ← List.map_map, h]

theorem mintView_sansCounts (u : Step) : mintView (sansCounts u) = mintView u := by
  simp only [mintView, group_sansCounts, isSplit_sansCounts]
  rfl

/-- A step of a list with the mint views of another lies under the same correction key as a
step of the other. -/
theorem exists_keyed_of_mintViews {L L₀ : List Step} (h : L.map mintView = L₀.map mintView)
    {s : Step} (hs : s ∈ L₀) : ∃ u ∈ L, u.group.getD u.id = s.group.getD s.id := by
  have hmem : mintView s ∈ L.map mintView := h ▸ List.mem_map_of_mem hs
  obtain ⟨u, hu, hv⟩ := List.mem_map.1 hmem
  simp only [mintView, Prod.mk.injEq] at hv
  exact ⟨u, hu, by rw [hv.1, hv.2.2.1]⟩

end Step

namespace MatchState

open Step

/-- A matching pass so far over the steps `steps₀`: the steps differ from them only in counts,
the runs of each step but a copy fit its quantity, no step changed until one was adapted, and
every proposed correction is keyed by the split group of one of the steps, or by the step
itself when it is not split. -/
structure Adapting (steps₀ : List Step) (st : MatchState) : Prop where
  frame : st.steps.map sansCounts = steps₀.map sansCounts
  fits : RunsFit st.steps
  unadapted : st.adapted = [] → st.steps = steps₀
  keys : ∀ e ∈ st.corrections, ∃ s ∈ steps₀, e.1 = s.group.getD s.id

theorem adapting_start (steps : List Step) (hg : Grouped steps) (claimed : List Nat) :
    Adapting steps { steps, claimed } :=
  ⟨rfl, hg.runsFit, fun _ => rfl, by simp⟩

variable {steps₀ : List Step} {config : EngineConfig} {plan : Ident} {world : World}
  {scope : MatchScope} {st st' : MatchState} {index : Nat}

/-- Matching a step keeps a pass adapting, when no step of the plan but a copy makes so many
units a run that all the jobs of the world would saturate them. -/
theorem Adapting.matchStep (hg₀ : Grouped steps₀)
    (hsat : ∀ s ∈ steps₀, s.isCopy = false → world.jobRuns * s.out ≤ Count.top)
    (hi : index < st.steps.length) (ha : Adapting steps₀ st)
    (h : Fabrication.matchStep config plan world scope st index = .ok st') :
    Adapting steps₀ st' := by
  have hlen : st.steps.length = steps₀.length := by simpa using congrArg List.length ha.frame
  have hat := sansCounts_stepAt_of_map ha.frame index
  have hmem₀ : stepAt steps₀ index ∈ steps₀ := stepAt_mem (hlen ▸ hi)
  unfold Fabrication.matchStep at h
  dsimp only at h
  split at h
  · cases h
    exact ha
  rename_i hskip
  split at h
  · cases h
    exact ha
  obtain ⟨matched, hmatched, h⟩ := ok_of_bind h
  generalize hr : List.foldl _ st _ = r at h
  have hkey : (stepAt st.steps index).group.getD (stepAt st.steps index).id =
      (stepAt steps₀ index).group.getD (stepAt steps₀ index).id := by
    rw [← sansCounts_congr hat group group_sansCounts, ← sansCounts_congr hat Step.id fun _ => rfl]
  have hr' : r.steps = st.steps ∧ r.adapted = st.adapted ∧ ∀ e ∈ r.corrections,
      ∃ s ∈ steps₀, e.1 = s.group.getD s.id := by
    subst hr
    refine foldl_invariant (fun acc : MatchState => acc.steps = st.steps ∧ acc.adapted = st.adapted ∧
      ∀ e ∈ acc.corrections, ∃ s ∈ steps₀, e.1 = s.group.getD s.id) ⟨rfl, rfl, ha.keys⟩ ?_
    rintro acc j - ⟨hsteps, hadapted, hkeys⟩
    split
    · split
      · exact ⟨hsteps, hadapted, hkeys⟩
      · refine ⟨hsteps, hadapted, fun e he => ?_⟩
        dsimp only at he
        split at he
        · rcases mem_putEntry he with rfl | he
          · exact ⟨_, hmem₀, hkey⟩
          · exact hkeys e he
        · rcases List.mem_append.1 he with he | he
          · exact hkeys e he
          · rw [List.mem_singleton.1 he]
            exact ⟨_, hmem₀, hkey⟩
    · exact ⟨hsteps, hadapted, hkeys⟩
  obtain ⟨hrs, hra, hrk⟩ := hr'
  split at h
  · cases h
    have hcopy : (stepAt st.steps index).isCopy = false := by
      unfold stepAt
      cases hc : (st.steps.getD index default).isCopy
      · rfl
      · rw [hc] at hskip
        simp at hskip
    have hcopy₀ : (stepAt steps₀ index).isCopy = false :=
      (sansCounts_congr hat isCopy fun _ => rfl) ▸ hcopy
    have hout : (stepAt st.steps index).out = (stepAt steps₀ index).out :=
      sansCounts_congr hat out fun _ => rfl
    have hpos : 0 < (stepAt st.steps index).out := hout ▸ (hg₀.runs _ hmem₀ hcopy₀).1
    -- the matched runs are runs of jobs of the world, so they make no more units than a count
    have hle : matched ≤ world.jobRuns := by
      rw [Count.eq_of_sum?_ok hmatched]
      exact sum_runs_le_jobRuns ((selectJobs_subperm _ _).trans
        (List.filter_sublist.subperm.trans (candidateJobs_subperm world scope _)))
    have hbound : matched * (stepAt st.steps index).out ≤ Count.top :=
      calc matched * (stepAt st.steps index).out
          ≤ world.jobRuns * (stepAt st.steps index).out :=
            Nat.mul_le_mul_right _ hle
        _ ≤ Count.top := hout ▸ hsat _ hmem₀ hcopy₀
    have hfit : matched = runsFor (Count.satMul matched (stepAt st.steps index).out)
        (stepAt st.steps index).out := by
      have hmin : Nat.min (matched * (stepAt st.steps index).out) Count.top =
          matched * (stepAt st.steps index).out := Nat.min_eq_left hbound
      rw [Count.satMul, hmin, runsFor_mul hpos]
    refine ⟨?_, fun p hp hc => ?_, fun hnil => absurd hnil (insertSorted_ne_nil _ _), hrk⟩
    · dsimp only
      rw [hrs, map_sansCounts_set]
      · exact ha.frame
      · rfl
    · dsimp only at hp hc ⊢
      rw [hrs] at hp hc ⊢
      by_cases hpi : p = index
      · subst hpi
        rw [stepAt_set_self (by simpa using hp)]
        exact hfit
      · rw [stepAt_set_of_ne hpi] at hc ⊢
        exact ha.fits p (by simpa using hp) hc
  · cases h
    exact ⟨hrs ▸ ha.frame, hrs ▸ ha.fits, fun hnil => hrs ▸ ha.unadapted (hra ▸ hnil), hrk⟩

end MatchState

namespace Step

/-- A step moved to a facility with a bonus keeps everything edits do not change. -/
theorem styleless_moved (s : Step) (b : Bonus) (f : Nat) :
    styleless { s.applyBonus b with facility := some f } = styleless s := rfl

/-- Steps that share what split groups share still do when moved to one facility with one
bonus. -/
theorem moved_groupView {s t : Step} (b : Bonus) (f : Nat) (h : s.groupView = t.groupView) :
    ({ s.applyBonus b with facility := some f } : Step).groupView =
      ({ t.applyBonus b with facility := some f } : Step).groupView := by
  simp only [groupView, Prod.mk.injEq] at h ⊢
  obtain ⟨h1, h2, h3, h4, h5, h6, h7, -⟩ := h
  exact ⟨h1, h2, h3, h4, h5, h6, h7, rfl⟩

section Keys

variable {L : List Step} {key : Ident}

/-- No member of a split group has the identifier a correction is keyed by: the key names a
group, which no step is named like, or an unsplit step, which is no other step. -/
theorem id_ne_key (hids : (L.map Step.id).Nodup) (hapart : ∀ s ∈ L, ∀ t ∈ L, t.group ≠ some s.id)
    (hkey : ∃ u ∈ L, key = u.group.getD u.id) {v : Step} (hv : v ∈ L) (hsome : v.group.isSome) :
    v.id ≠ key := by
  obtain ⟨u, hu, rfl⟩ := hkey
  intro hid
  cases hg : u.group with
  | some g =>
    rw [hg, Option.getD_some] at hid
    exact hapart v hv u hu (hg.trans (congrArg some hid.symm))
  | none =>
    rw [hg, Option.getD_none] at hid
    rw [List.inj_on_of_nodup_map hids hv hu hid, hg] at hsome
    cases hsome

/-- A correction's key takes in the members of a split group all together or none of them. -/
theorem underKey_shared (hids : (L.map Step.id).Nodup)
    (hapart : ∀ s ∈ L, ∀ t ∈ L, t.group ≠ some s.id) (hkey : ∃ u ∈ L, key = u.group.getD u.id)
    {s t : Step} (hs : s ∈ L) (ht : t ∈ L) (hsome : s.group.isSome) (hgrp : s.group = t.group) :
    underKey key s = underKey key t := by
  by_cases hk : s.group = some key
  · simp [underKey, hk, ← hgrp]
  · unfold underKey
    rw [beq_false_of_ne (id_ne_key hids hapart hkey hs hsome),
      beq_false_of_ne (id_ne_key hids hapart hkey ht (hgrp ▸ hsome)), beq_false_of_ne hk,
      beq_false_of_ne (hgrp ▸ hk : t.group ≠ some key)]

end Keys

end Step

open Step

/-- A facility correction leaves the steps as they are, or moves every step under its key to
the corrected facility with one resolved bonus. -/
theorem applyCorrection_steps {res : Resolver} {user : Nat}
    {acc acc' : List Step × List Ident × List String} {entry : Ident × Correction}
    (h : applyCorrection res user acc entry = .ok acc') :
    acc'.1 = acc.1 ∨ ∃ b : Bonus, acc'.1 = acc.1.map fun s =>
      if underKey entry.1 s then { s.applyBonus b with facility := some entry.2.facility } else s := by
  obtain ⟨steps, corrected, messages⟩ := acc
  obtain ⟨key, c⟩ := entry
  unfold applyCorrection at h
  dsimp only at h
  split at h
  · cases h
    exact Or.inl rfl
  split at h
  · cases h
    exact Or.inl rfl
  · cases h
  · cases h
    exact Or.inr ⟨_, rfl⟩

/-- Facility corrections keyed by the split groups of steps made before a mark, or by those of
them that are not split, keep the steps grouped, and well formed when they were, changing
nothing of them but what edits change. -/
theorem corrections_restyle {res : Resolver} {user : Nat} {cs : List (Ident × Correction)}
    {L₀ : List Step} {n : Nat} {acc r : List Step × List Ident × List String}
    (hg : Grouped L₀) (hm : Minted n L₀) (hkeys : ∀ e ∈ cs, ∃ s ∈ L₀, e.1 = s.group.getD s.id)
    (h0 : acc.1 = L₀) (h : cs.foldlM (applyCorrection res user) acc = .ok r) :
    r.1.map styleless = L₀.map styleless ∧ Grouped r.1 ∧ (WellFormed L₀ → WellFormed r.1) := by
  refine foldlM_invariant (fun acc : List Step × List Ident × List String =>
    acc.1.map styleless = L₀.map styleless ∧ Grouped acc.1 ∧ (WellFormed L₀ → WellFormed acc.1))
    h ⟨h0 ▸ rfl, h0 ▸ hg, fun hw => h0 ▸ hw⟩ ?_
  rintro acc e acc' he ⟨hview, hgL, hwL⟩ hstep
  rcases applyCorrection_steps hstep with hsame | ⟨b, hmoved⟩
  · exact hsame ▸ ⟨hview, hgL, hwL⟩
  have hmint : acc.1.map mintView = L₀.map mintView := map_eq_of_map_view hview mintView fun _ => rfl
  have hkey : ∃ u ∈ acc.1, e.1 = u.group.getD u.id := by
    obtain ⟨s, hs, hes⟩ := hkeys e he
    obtain ⟨u, hu, hus⟩ := exists_keyed_of_mintViews hmint hs
    exact ⟨u, hu, hes.trans hus.symm⟩
  have hapart := (Minted.of_mintViews hmint hm).apart
  have hf : ∀ s ∈ acc.1, styleless ((fun s => if underKey e.1 s then
      { s.applyBonus b with facility := some e.2.facility } else s) s) = styleless s := fun s _ => by
    dsimp only
    split
    · exact styleless_moved s b _
    · rfl
  have hshared : ∀ s ∈ acc.1, ∀ t ∈ acc.1, s.group.isSome → s.group = t.group →
      ((fun s => if underKey e.1 s then { s.applyBonus b with facility := some e.2.facility }
        else s) s).groupView =
      ((fun s => if underKey e.1 s then { s.applyBonus b with facility := some e.2.facility }
        else s) t).groupView := fun s hs t ht hsome hgrp => by
    dsimp only
    rw [underKey_shared hgL.ids hapart hkey hs ht hsome hgrp]
    split
    · exact moved_groupView b _ (hgL.shared s hs t ht hsome hgrp)
    · exact hgL.shared s hs t ht hsome hgrp
  rw [hmoved]
  exact ⟨(map_styleless_restyled hf).trans hview, hgL.restyled hf hshared,
    fun hw => (hwL hw).restyled hf hshared⟩

/-- Matching a well-formed plan, whose steps were made before a mark, gives well-formed steps
with the identifiers, splits and units a run of the plan's own, when all the jobs of the world
together, times the units a run of any step but a copy makes, stay within a count. -/
theorem matchPlan_wellFormed {config : EngineConfig} {plan : Plan} {book : RecipeBook}
    {scope : MatchScope} {claimed claimed' : List Nat} {world : World} {res : Resolver}
    {o : MatchOutcome} {n : Nat} (hw : WellFormed plan.steps) (hm : Minted n plan.steps)
    (hsat : ∀ s ∈ plan.steps, s.isCopy = false → world.jobRuns * s.out ≤ Count.top)
    (h : matchPlan config plan book scope claimed world res = .ok (o, claimed')) :
    WellFormed o.steps ∧ o.steps.map mintView = plan.steps.map mintView ∧
      o.steps.map out = plan.steps.map out := by
  unfold matchPlan at h
  obtain ⟨st, hst, h⟩ := ok_of_bind h
  have ha : MatchState.Adapting plan.steps st := by
    refine foldlM_invariant (MatchState.Adapting plan.steps) (ok_of_ofFault hst)
      (MatchState.adapting_start _ hw.toGrouped _) fun st i st' hi ha hstep => ?_
    have hlen : i < st.steps.length := by
      rw [← List.length_map (f := sansCounts), ha.frame, List.length_map]
      exact lt_of_mem_matchOrder hi
    exact ha.matchStep hw.toGrouped hsat hlen hstep
  have hmint : st.steps.map mintView = plan.steps.map mintView :=
    map_eq_of_map_view ha.frame mintView mintView_sansCounts
  obtain ⟨⟨steps, corrected, messages⟩, hc, h⟩ := ok_of_bind h
  obtain ⟨hview, hgc, hwc⟩ := corrections_restyle (hw.toGrouped.of_frame ha.frame ha.fits)
    (Minted.of_mintViews hmint hm) (fun e he => by
      obtain ⟨s, hs, hes⟩ := ha.keys e ((sortBy_perm _ _).mem_iff.1 he)
      obtain ⟨u, hu, hus⟩ := exists_keyed_of_mintViews hmint hs
      exact ⟨u, hu, hes.trans hus.symm⟩) rfl hc
  have hmint' : steps.map mintView = plan.steps.map mintView :=
    (map_eq_of_map_view hview mintView fun _ => rfl).trans hmint
  have hout : steps.map out = plan.steps.map out :=
    (map_eq_of_map_view hview out fun _ => rfl).trans (map_eq_of_map_view ha.frame out fun _ => rfl)
  dsimp only at h
  split at h
  · rename_i hnone
    cases h
    have hsteps : st.steps = plan.steps := ha.unadapted (by simp at hnone; exact hnone.1)
    exact ⟨hwc (hsteps ▸ hw), hmint', hout⟩
  · obtain ⟨recalc, hrecalc, h⟩ := ok_of_bind h
    cases h
    obtain ⟨pinned, -, hr⟩ := ok_of_bind (ok_of_ofFault hrecalc)
    obtain ⟨hwr, hframe⟩ := recalculate_wellFormed hgc (Minted.of_mintViews hmint' hm).copies hr
    exact ⟨hwr, (map_eq_of_map_view hframe mintView mintView_sansCounts).trans hmint',
      (map_eq_of_map_view hframe out fun _ => rfl).trans hout⟩

end Fabrication
