import Mathlib
import Fabrication.Proofs.Matching.Follow
import Fabrication.Proofs.Matching.Select
import Fabrication.Proofs.Step.Identifiers

/-!
# Matching a plan again

A matching pass that adapts steps to their jobs but corrects no facility leaves a plan that the
same jobs settle: matching it again takes the same jobs, in some order, adapts and corrects
nothing, and leaves its steps as they are (`matchPlan_again`).

Every step the first pass matched ends with the runs of its jobs, which the recalculation that
follows keeps by pinning it. Asked again, the step's pool is the same as before, and asking it
for the runs it gave takes the same jobs (`selectJobs_reselect`), so the step has nothing to
adapt to (`matchStep_again`); a step that took nothing had an empty pool and finds it empty
again. Step by step the two passes claim the same jobs and record the same matches up to order
(`foldlM_matchStep_again`). The correction proposed under a key is that of the latest drifting
job, which the order of the matches does not change (`sortBy_corrections_again`), so the second
pass meets the same corrections, none of which corrected a step the first time
(`foldlM_applyCorrection_again`).
-/

namespace Fabrication

open Step MatchState

section Order

theorem Ident.lt_asymm (a b : Ident) : ¬(Ident.lt a b = true ∧ Ident.lt b a = true) := by
  cases a <;> cases b <;> simp [Ident.lt]
  all_goals omega

theorem Ident.lt_connex {a b : Ident} (h : a ≠ b) : Ident.lt a b = true ∨ Ident.lt b a = true := by
  cases a <;> cases b <;> simp_all [Ident.lt]

theorem Ident.lt_or_lt_of_lt {a b c : Ident} (h : Ident.lt a c = true) :
    Ident.lt a b = true ∨ Ident.lt b c = true := by
  cases a <;> cases b <;> cases c <;> simp_all [Ident.lt] <;> omega

end Order

section Taking

variable {config : EngineConfig} {plan : Ident} {world : World} {scope : MatchScope}

/-- The jobs a step may take: the matchable jobs of its recipe and activity not yet claimed. -/
abbrev poolFor (world : World) (scope : MatchScope) (claimed : List Nat) (u : Step) : List Job :=
  (candidateJobs world scope u.recipe).filter fun j =>
    j.activity == u.activity && !claimed.contains j.id

/-- The jobs a step takes from its pool for its runs. -/
abbrev takenBy (world : World) (scope : MatchScope) (claimed : List Nat) (u : Step) : List Job :=
  selectJobs (poolFor world scope claimed u) u.runs

/-- Whether matching passes a step by for its kind: bought steps, copies and steps left out of
matching. -/
def passesByKind (u : Step) : Bool := u.purchased || u.isCopy || !u.autoMatch

/-- Whether matching passes a step by: for its kind, or for want of runs. -/
def passesBy (u : Step) : Bool := passesByKind u || u.runs == 0

theorem runs_pos_of_passesBy {u : Step} (h : passesBy u = false) : 0 < u.runs := by
  simp only [passesBy, Bool.or_eq_false_iff, beq_eq_false_iff_ne] at h
  omega

/-- The match recorded for a job a step takes. -/
def recordOf (plan : Ident) (u : Step) (j : Job) : StepMatch :=
  ⟨plan, u.id, j.id, j.runs, driftOf u j⟩

theorem mem_world_of_mem_poolFor {claimed : List Nat} {u : Step} {j : Job}
    (h : j ∈ poolFor world scope claimed u) : j ∈ world.jobs :=
  (mem_candidateJobs (List.mem_filter.1 h).1).1

/-- A fold over taken jobs whose every step claims the job it sees claims exactly those jobs
more. -/
theorem foldl_claims {F : MatchState → Job → MatchState} {l : List Job} {st r : MatchState}
    (h : l.foldl F st = r) (hF : ∀ st j x, x ∈ (F st j).claimed ↔ x ∈ st.claimed ∨ x = j.id) :
    ∀ x, x ∈ r.claimed ↔ x ∈ st.claimed ∨ ∃ j ∈ l, j.id = x := by
  subst h
  induction l generalizing st with
  | nil => simp
  | cons j l ih =>
    intro x
    rw [List.foldl_cons, ih, hF]
    simp only [List.mem_cons, exists_eq_or_imp]
    constructor
    · rintro ((h | rfl) | h)
      · exact .inl h
      · exact .inr (.inl rfl)
      · exact .inr (.inr h)
    · rintro (h | rfl | h)
      · exact .inl (.inl h)
      · exact .inl (.inr rfl)
      · exact .inr h

/-- What matching the step at `index` does: it passes the step by or takes nothing, and keeps
the state; or it takes the jobs `takenBy` names, of runs that fit in a count, and records and
claims them. -/
theorem matchStep_spec {st st' : MatchState} {index : Nat}
    (h : matchStep config plan world scope st index = .ok st') :
    (st' = st ∧ (passesBy (stepAt st.steps index) = true ∨
        takenBy world scope st.claimed (stepAt st.steps index) = [])) ∨
      (passesBy (stepAt st.steps index) = false ∧
        takenBy world scope st.claimed (stepAt st.steps index) ≠ [] ∧
        totalRuns (takenBy world scope st.claimed (stepAt st.steps index)) < Count.bound ∧
        st'.assignments = st.assignments ++
          (takenBy world scope st.claimed (stepAt st.steps index)).map
            (recordOf plan (stepAt st.steps index)) ∧
        ∀ x, x ∈ st'.claimed ↔ x ∈ st.claimed ∨
          ∃ j ∈ takenBy world scope st.claimed (stepAt st.steps index), j.id = x) := by
  unfold matchStep at h
  dsimp only at h
  split at h
  · cases h
    exact .inl ⟨rfl, .inl ‹_›⟩
  rename_i hpass
  split at h
  · cases h
    exact .inl ⟨rfl, .inr (List.isEmpty_iff.1 ‹_›)⟩
  rename_i hnil
  obtain ⟨matched, hmatched, h⟩ := ok_of_bind h
  generalize hr : List.foldl _ st _ = r at h
  obtain ⟨-, -, hrm⟩ := foldl_records (recordOf plan (stepAt st.steps index)) hr fun r j => by
    split
    · split
      · exact ⟨rfl, rfl, rfl⟩
      · exact ⟨rfl, rfl, rfl⟩
    · exact ⟨rfl, rfl, rfl⟩
  have hrc := foldl_claims hr fun r j x => by
    split
    · split
      · exact MatchState.mem_claim
      · exact MatchState.mem_claim
    · exact MatchState.mem_claim
  have hfit : totalRuns (takenBy world scope st.claimed (stepAt st.steps index)) < Count.bound := by
    have := Count.lt_bound_of_check_ok hmatched
    rwa [Count.eq_of_sum?_ok hmatched] at this
  refine .inr ⟨Bool.eq_false_iff.2 hpass, fun hn => hnil (List.isEmpty_iff.2 hn), hfit, ?_, ?_⟩
  · split at h <;> cases h <;> exact hrm
  · split at h <;> cases h <;> exact hrc

theorem matchStep_of_passesBy {st : MatchState} {index : Nat}
    (h : passesBy (stepAt st.steps index) = true) :
    matchStep config plan world scope st index = .ok st := by
  unfold matchStep
  dsimp only
  split
  · rfl
  · rename_i hnot
    exact absurd h hnot

theorem matchStep_of_takenBy_nil {st : MatchState} {index : Nat}
    (h : takenBy world scope st.claimed (stepAt st.steps index) = []) :
    matchStep config plan world scope st index = .ok st := by
  unfold matchStep
  dsimp only
  split
  · rfl
  · split
    · rfl
    · rename_i hne
      exact absurd (List.isEmpty_iff.2 h) hne

/-- A step that is not passed by and already has the runs of the jobs it takes records and
claims them, and is not adapted. -/
theorem matchStep_of_settled (hpolicy : config.matchPolicy = .onAnyDifference)
    {st : MatchState} {index : Nat} (hpass : passesBy (stepAt st.steps index) = false)
    (hne : takenBy world scope st.claimed (stepAt st.steps index) ≠ [])
    (hfit : totalRuns (takenBy world scope st.claimed (stepAt st.steps index)) < Count.bound)
    (hruns : (stepAt st.steps index).runs =
      totalRuns (takenBy world scope st.claimed (stepAt st.steps index))) :
    ∃ st', matchStep config plan world scope st index = .ok st' ∧ st'.steps = st.steps ∧
      st'.adapted = st.adapted ∧
      st'.assignments = st.assignments ++
        (takenBy world scope st.claimed (stepAt st.steps index)).map
          (recordOf plan (stepAt st.steps index)) ∧
      ∀ x, x ∈ st'.claimed ↔ x ∈ st.claimed ∨
        ∃ j ∈ takenBy world scope st.claimed (stepAt st.steps index), j.id = x := by
  unfold matchStep
  dsimp only
  rw [show st.steps.getD index default = stepAt st.steps index from rfl]
  split
  · rename_i h
    exact absurd h (Bool.eq_false_iff.1 hpass)
  split
  · rename_i h
    exact absurd (List.isEmpty_iff.1 h) hne
  rw [Count.sum?_of_lt hfit]
  generalize hr : List.foldl _ st _ = r
  obtain ⟨hrs, hra, hrm⟩ := foldl_records (recordOf plan (stepAt st.steps index)) hr fun r j => by
    split
    · split
      · exact ⟨rfl, rfl, rfl⟩
      · exact ⟨rfl, rfl, rfl⟩
    · exact ⟨rfl, rfl, rfl⟩
  have hrc := foldl_claims hr fun r j x => by
    split
    · split
      · exact MatchState.mem_claim
      · exact MatchState.mem_claim
    · exact MatchState.mem_claim
  have hkeep : config.matchPolicy.shouldAdapt (stepAt st.steps index).runs
      (totalRuns (takenBy world scope st.claimed (stepAt st.steps index))) = false := by
    rw [hpolicy, Bool.eq_false_iff, ne_eq, MatchPolicy.shouldAdapt_onAnyDifference, hruns]
    exact fun h => h.2 rfl
  refine ⟨r, ?_, hrs, hra, hrm, hrc⟩
  simp only [bind, Except.bind]
  rw [if_neg (by simpa [totalRuns] using hkeep)]
  rfl

theorem totalRuns_pos {jobs : List Job} (hpos : ∀ j ∈ jobs, 0 < j.runs) (hne : jobs ≠ []) :
    0 < totalRuns jobs :=
  Nat.pos_of_ne_zero fun h => hne (eq_nil_of_totalRuns_eq_zero hpos h)

section Congr

variable {u u' : Step} (hsame : sansCounts u' = sansCounts u)
include hsame

theorem poolFor_congr {claimed claimed' : List Nat} (hclaims : ∀ x, x ∈ claimed' ↔ x ∈ claimed) :
    poolFor world scope claimed' u' = poolFor world scope claimed u := by
  have hrecipe : u'.recipe = u.recipe := (congrArg Step.recipe hsame :)
  have hactivity : u'.activity = u.activity := (congrArg Step.activity hsame :)
  simp only [poolFor, hrecipe, hactivity]
  refine List.filter_congr fun j _ => ?_
  have hc : claimed'.contains j.id = claimed.contains j.id := by
    rw [Bool.eq_iff_iff, List.contains_iff_mem, List.contains_iff_mem, hclaims]
  rw [hc]

theorem recordOf_congr : recordOf plan u' = recordOf plan u := by
  have hid : u'.id = u.id := (congrArg Step.id hsame :)
  have hdrift : driftOf u' = driftOf u := by
    have hf : u'.facility = u.facility := (congrArg Step.facility hsame :)
    have hm : u'.matBonus = u.matBonus := (congrArg Step.matBonus hsame :)
    have ht : u'.timeBonus = u.timeBonus := (congrArg Step.timeBonus hsame :)
    funext j
    simp only [driftOf, hf, hm, ht]
  funext j
  simp only [recordOf, hid, hdrift]

theorem passesByKind_congr : passesByKind u' = passesByKind u := by
  have hp : u'.purchased = u.purchased := (congrArg Step.purchased hsame :)
  have ha : u'.activity = u.activity := (congrArg Step.activity hsame :)
  have hm : u'.autoMatch = u.autoMatch := (congrArg Step.autoMatch hsame :)
  simp only [passesByKind, Step.isCopy, hp, ha, hm]

theorem passesBy_congr (hruns : 0 < u'.runs ↔ 0 < u.runs) : passesBy u' = passesBy u := by
  have hz : (u'.runs == 0) = (u.runs == 0) := by
    rw [Bool.eq_iff_iff, beq_iff_eq, beq_iff_eq]
    omega
  rw [passesBy, passesBy, passesByKind_congr hsame, hz]

/-- A step passed by, which has runs unless it is passed by for its kind, is passed by
whatever its runs. -/
theorem passesBy_of_passesBy (hkind : passesByKind u = false → 0 < u.runs) (h : passesBy u = true) :
    passesBy u' = true := by
  cases hk : passesByKind u
  · have hrun := hkind hk
    simp only [passesBy, hk, Bool.false_or, beq_iff_eq] at h
    omega
  · rw [passesBy, passesByKind_congr hsame, hk, Bool.true_or]

end Congr

/-- A step of the second pass matched like a step of the first, with the first pass's claims, and
asked for the runs of the jobs the first took, if it took any, does what the first did: it takes
the same jobs, perhaps in another order, and adapts nothing. -/
theorem matchStep_again (hpolicy : config.matchPolicy = .onAnyDifference)
    (hpos : ∀ j ∈ world.jobs, 0 < j.runs) {st₁ st₁' st₂ : MatchState} {i : Nat}
    (h₁ : matchStep config plan world scope st₁ i = .ok st₁')
    (hsame : sansCounts (stepAt st₂.steps i) = sansCounts (stepAt st₁.steps i))
    (hkind : passesByKind (stepAt st₁.steps i) = false → 0 < (stepAt st₁.steps i).runs)
    (hassign : st₂.assignments.Perm st₁.assignments)
    (hclaims : ∀ x, x ∈ st₂.claimed ↔ x ∈ st₁.claimed)
    (hruns : passesBy (stepAt st₁.steps i) = false →
      takenBy world scope st₁.claimed (stepAt st₁.steps i) ≠ [] →
      (stepAt st₂.steps i).runs = totalRuns (takenBy world scope st₁.claimed (stepAt st₁.steps i))) :
    ∃ st₂', matchStep config plan world scope st₂ i = .ok st₂' ∧ st₂'.steps = st₂.steps ∧
      st₂'.adapted = st₂.adapted ∧ st₂'.assignments.Perm st₁'.assignments ∧
      ∀ x, x ∈ st₂'.claimed ↔ x ∈ st₁'.claimed := by
  have hpool : poolFor world scope st₂.claimed (stepAt st₂.steps i) =
      poolFor world scope st₁.claimed (stepAt st₁.steps i) := poolFor_congr hsame hclaims
  rcases matchStep_spec h₁ with ⟨hst, hskip⟩ | ⟨hpass, hne, hfit, hassign₁, hclaim₁⟩
  · rw [hst]
    refine ⟨st₂, ?_, rfl, rfl, hassign, hclaims⟩
    cases hpass : passesBy (stepAt st₁.steps i)
    · -- a step not passed by has runs, so its pool was empty, and is the same pool
      refine matchStep_of_takenBy_nil ?_
      rw [takenBy, hpool, eq_nil_of_selectJobs_eq_nil (runs_pos_of_passesBy hpass)
        (hskip.resolve_left (by simp [hpass]))]
      exact List.subperm_nil.1 (selectJobs_subperm [] _)
    · exact matchStep_of_passesBy (passesBy_of_passesBy hsame hkind hpass)
  · have hrun : 0 < (stepAt st₁.steps i).runs := runs_pos_of_passesBy hpass
    set taken := takenBy world scope st₁.claimed (stepAt st₁.steps i) with htaken
    have hpool_pos : ∀ j ∈ poolFor world scope st₁.claimed (stepAt st₁.steps i), 0 < j.runs :=
      fun j hj => hpos j (mem_world_of_mem_poolFor hj)
    have hM : 0 < totalRuns taken :=
      totalRuns_pos (fun j hj => hpool_pos j ((selectJobs_subperm _ _).subset hj)) hne
    have hperm : (takenBy world scope st₂.claimed (stepAt st₂.steps i)).Perm taken := by
      rw [takenBy, hpool, hruns hpass hne]
      exact selectJobs_reselect hpool_pos _
    have hne₂ : takenBy world scope st₂.claimed (stepAt st₂.steps i) ≠ [] := fun h =>
      hne (List.perm_nil.1 (h ▸ hperm).symm)
    have hpass₂ : passesBy (stepAt st₂.steps i) = false := by
      rw [passesBy_congr hsame ⟨fun _ => hrun, fun _ => hruns hpass hne ▸ hM⟩]
      exact hpass
    obtain ⟨st₂', hstep, hsteps, hadapted, hassign₂, hclaim₂⟩ := matchStep_of_settled hpolicy hpass₂
      hne₂ (totalRuns_perm hperm ▸ hfit) ((hruns hpass hne).trans (totalRuns_perm hperm).symm)
    refine ⟨st₂', hstep, hsteps, hadapted, ?_, fun x => ?_⟩
    · rw [hassign₂, hassign₁, recordOf_congr hsame]
      exact hassign.append (hperm.map _)
    · rw [hclaim₂, hclaim₁, hclaims]
      simp only [hperm.mem_iff]

end Taking

section Pass

variable {config : EngineConfig} {plan : Ident} {world : World} {scope : MatchScope} {S : List Step}

variable (hpolicy : config.matchPolicy = .onAnyDifference) (hids : (S.map Step.id).Nodup)
  (hjobs : (world.jobs.map (·.id)).Nodup)
include hpolicy hids hjobs

/-- Once its turn is over, a step gets no more matches: the rest of the pass matches other
steps. -/
theorem foldlM_matchStep_total :
    ∀ (l done : List Nat) (st st' : MatchState), l.Nodup → (∀ i ∈ l, i < S.length ∧ i ∉ done) →
      Passed world S done st →
      l.foldlM (Fabrication.matchStep config plan world scope) st = .ok st' →
      ∀ p ∈ done, p < S.length →
        matchedTotal st'.assignments (stepAt S p).id = matchedTotal st.assignments (stepAt S p).id
  | [], _, _, _, _, _, _, h, _, _, _ => by
    cases h
    rfl
  | i :: l, done, st, st', hnd, hl, hp, h, p, hpd, hpl => by
    rw [List.foldlM_cons] at h
    obtain ⟨st₁, h₁, h⟩ := ok_of_bind h
    obtain ⟨hi, hnew⟩ := hl i List.mem_cons_self
    rw [foldlM_matchStep_total l (i :: done) st₁ st' (List.nodup_cons.1 hnd).2
      (unvisited_cons hnd hl) (hp.matchStep hpolicy hids hjobs hi hnew h₁) h p
      (List.mem_cons_of_mem _ hpd) hpl]
    obtain ⟨taken, -, -, hassign, -⟩ := matchStep_records h₁
    have hrecords := matchedTotal_records taken
      (fun j => (⟨plan, (stepAt S i).id, j.id, j.runs, driftOf (stepAt S i) j⟩ : StepMatch))
      (fun _ => ⟨rfl, rfl⟩) (stepAt S p).id
    rw [hassign, matchedTotal_append, (hp.unvisited hids hi hnew).2, hrecords, if_neg, add_zero]
    exact fun hid => hnew (eq_of_id_eq hids hpl hi hid ▸ hpd)

variable (hpos : ∀ j ∈ world.jobs, 0 < j.runs) (hruns : ∀ u ∈ S, passesByKind u = false → 0 < u.runs)
  {T : List Step}
  (hT : T.map sansCounts = S.map sansCounts) {stf : MatchState}
  (hTruns : ∀ p < S.length, 0 < matchedTotal stf.assignments (stepAt S p).id →
    (stepAt T p).runs = matchedTotal stf.assignments (stepAt S p).id)
include hpos hruns hT hTruns

/-- A second pass over steps `T` that are the first pass's steps `S` but for their counts, each
with the runs the first pass matched to it if it matched any, follows the first pass step by
step: it claims the same jobs, records the same matches up to order, and adapts nothing. -/
theorem foldlM_matchStep_again :
    ∀ (l done : List Nat) (st₁ st₂ : MatchState), l.Nodup → (∀ i ∈ l, i < S.length ∧ i ∉ done) →
      Passed world S done st₁ →
      l.foldlM (Fabrication.matchStep config plan world scope) st₁ = .ok stf →
      st₂.steps = T → st₂.assignments.Perm st₁.assignments →
      (∀ x, x ∈ st₂.claimed ↔ x ∈ st₁.claimed) →
      ∃ st₂f, l.foldlM (Fabrication.matchStep config plan world scope) st₂ = .ok st₂f ∧
        st₂f.steps = T ∧ st₂f.adapted = st₂.adapted ∧ st₂f.assignments.Perm stf.assignments ∧
        ∀ x, x ∈ st₂f.claimed ↔ x ∈ stf.claimed
  | [], _, _, st₂, _, _, _, h, hsteps, hassign, hclaims => by
    cases h
    exact ⟨st₂, rfl, hsteps, rfl, hassign, hclaims⟩
  | i :: l, done, st₁, st₂, hnd, hl, hp, h, hsteps, hassign, hclaims => by
    rw [List.foldlM_cons] at h
    obtain ⟨st₁', h₁, h⟩ := ok_of_bind h
    obtain ⟨hi, hnew⟩ := hl i List.mem_cons_self
    obtain ⟨hzero, hat⟩ := hp.unvisited hids hi hnew
    have hp' := hp.matchStep hpolicy hids hjobs hi hnew h₁
    have hsame : sansCounts (stepAt st₂.steps i) = sansCounts (stepAt st₁.steps i) := by
      rw [hsteps, hat]
      exact sansCounts_stepAt_of_map hT i
    -- the runs the first pass matched at `i` are all it will ever match there
    have hmatched : passesBy (stepAt st₁.steps i) = false →
        takenBy world scope st₁.claimed (stepAt st₁.steps i) ≠ [] →
        (stepAt st₂.steps i).runs = totalRuns (takenBy world scope st₁.claimed (stepAt st₁.steps i)) := by
      intro hpass hne
      rcases matchStep_spec h₁ with ⟨-, hskip⟩ | ⟨-, -, -, hassign₁, -⟩
      · rcases hskip with h' | h'
        · exact absurd h' (by simp [hpass])
        · exact absurd h' hne
      have htotal : matchedTotal stf.assignments (stepAt S i).id =
          totalRuns (takenBy world scope st₁.claimed (stepAt st₁.steps i)) := by
        rw [foldlM_matchStep_total hpolicy hids hjobs l (i :: done) st₁' stf (List.nodup_cons.1 hnd).2
          (unvisited_cons hnd hl) hp' h i List.mem_cons_self hi, hassign₁, matchedTotal_append, hzero,
          matchedTotal_records _ _ (fun _ => ⟨by rw [hat]; rfl, rfl⟩), if_pos rfl, zero_add]
        rfl
      have hpos' : 0 < totalRuns (takenBy world scope st₁.claimed (stepAt st₁.steps i)) :=
        totalRuns_pos (fun j hj => hpos j (mem_world_of_mem_poolFor ((selectJobs_subperm _ _).subset hj))) hne
      rw [hsteps, hTruns i hi (htotal ▸ hpos'), htotal]
    obtain ⟨st₂', h₂, hsteps₂, hadapted₂, hassign₂, hclaims₂⟩ := matchStep_again hpolicy hpos h₁ hsame
      (hat ▸ hruns _ (stepAt_mem hi)) hassign hclaims hmatched
    obtain ⟨st₂f, hf, hstepsf, hadaptedf, hassignf, hclaimsf⟩ := foldlM_matchStep_again l (i :: done) st₁' st₂' (List.nodup_cons.1 hnd).2
      (unvisited_cons hnd hl) hp' h (hsteps₂.trans hsteps) hassign₂ hclaims₂
    refine ⟨st₂f, ?_, hstepsf, hadaptedf.trans hadapted₂, hassignf, hclaimsf⟩
    rw [List.foldlM_cons, h₂]
    exact hf

end Pass

section Corrections

variable {world : World} {S T : List Step} {ms ms' : List StepMatch} {key : Ident}

/-- Whether a job drifts under a key reads the steps only up to their counts and the matches
only as a set. -/
theorem DriftsUnder.of_view (hview : ∀ u ∈ T, ∃ v ∈ S, sansCounts v = sansCounts u)
    (hms : ∀ m ∈ ms', m ∈ ms) {j : Job} (h : DriftsUnder T ms' key j) : DriftsUnder S ms key j := by
  obtain ⟨m, hm, hjob, u, hu, hid, hkey, f, hf, hne⟩ := h
  obtain ⟨v, hv, hvu⟩ := hview u hu
  have hvid : v.id = u.id := (congrArg Step.id hvu :)
  have hvkey : v.correctionKey = u.correctionKey := by
    unfold correctionKey
    rw [← group_sansCounts v, hvu, group_sansCounts, hvid]
  have hvfac : v.facility = u.facility := (congrArg Step.facility hvu :)
  exact ⟨m, hms m hm, hjob, v, hv, hvid.trans hid, hvkey.trans hkey, f, hf, hvfac ▸ hne⟩

theorem driftsUnder_iff (hT : T.map sansCounts = S.map sansCounts) (hms : ms'.Perm ms) (j : Job) :
    DriftsUnder T ms' key j ↔ DriftsUnder S ms key j := by
  have hview : ∀ {A B : List Step}, A.map sansCounts = B.map sansCounts →
      ∀ u ∈ A, ∃ v ∈ B, sansCounts v = sansCounts u := fun hAB u hu =>
    List.mem_map.1 (hAB ▸ List.mem_map_of_mem hu)
  exact ⟨DriftsUnder.of_view (hview hT) hms.subset, DriftsUnder.of_view (hview hT.symm) hms.symm.subset⟩

/-- The latest drift under a key is one job, so two passes that see the same drifts propose the
same correction under it. -/
theorem LatestUnder.correctionFor_eq (hjobs : (world.jobs.map (·.id)).Nodup)
    {cs cs' : List (Ident × Correction)} (h : LatestUnder world S ms cs key)
    (h' : LatestUnder world T ms' cs' key) (hd : ∀ j, DriftsUnder T ms' key j ↔ DriftsUnder S ms key j) :
    correctionFor cs' key = correctionFor cs key := by
  cases hc : correctionFor cs key with
  | none =>
    cases hc' : correctionFor cs' key with
    | none => rfl
    | some c' =>
      obtain ⟨j, hj, hdrift, -⟩ := h'.1 c' hc'
      obtain ⟨c, hc₁, -⟩ := h.2 j hj ((hd j).1 hdrift)
      rw [hc] at hc₁
      cases hc₁
  | some c =>
    obtain ⟨j, hj, hdrift, hf, hs, hid⟩ := h.1 c hc
    obtain ⟨c', hc', hcov'⟩ := h'.2 j hj ((hd j).2 hdrift)
    obtain ⟨j', hj', hdrift', hf', hs', hid'⟩ := h'.1 c' hc'
    obtain ⟨c'', hc'', hcov⟩ := h.2 j' hj' ((hd j').1 hdrift')
    rw [hc, Option.some.injEq] at hc''
    subst hc''
    have hjj : j' = j := by
      unfold Correction.Covers at hcov hcov'
      exact List.inj_on_of_nodup_map hjobs hj' hj (by omega)
    subst hjj
    rw [hc', Option.some.injEq]
    obtain ⟨f, started, job⟩ := c
    obtain ⟨f', started', job'⟩ := c'
    rw [hf, Option.some.injEq] at hf'
    simp only at hf' hs hs' hid hid'
    rw [hf', hs, hs', hid, hid']

theorem perm_of_correctionFor {cs cs' : List (Ident × Correction)} (hnd : (cs.map (·.1)).Nodup)
    (hnd' : (cs'.map (·.1)).Nodup) (h : ∀ k, correctionFor cs' k = correctionFor cs k) :
    cs'.Perm cs := by
  refine (List.perm_ext_iff_of_nodup (List.Nodup.of_map _ hnd') (List.Nodup.of_map _ hnd)).2 fun e => ?_
  constructor
  · intro he
    have hfor := correctionFor_of_mem hnd' he
    rw [h] at hfor
    exact mem_of_correctionFor hfor
  · intro he
    have hfor := correctionFor_of_mem hnd he
    rw [← h] at hfor
    exact mem_of_correctionFor hfor

/-- Corrections under distinct keys are applied in one order, whatever order they were
proposed in. -/
theorem sortBy_corrections_eq {cs cs' : List (Ident × Correction)} (hnd : (cs.map (·.1)).Nodup)
    (h : cs'.Perm cs) :
    sortBy (fun a b => !(Ident.lt b.1 a.1)) cs' = sortBy (fun a b => !(Ident.lt b.1 a.1)) cs := by
  have hnd' : (cs'.map (·.1)).Nodup := (h.map _).nodup_iff.2 hnd
  refine sortBy_eq_of_perm (fun a b => ?_) (fun a b c hab hbc => ?_) h fun a ha b hb hab hba => ?_
  · have := Ident.lt_asymm a.1 b.1
    cases hba : Ident.lt b.1 a.1 <;> cases hab : Ident.lt a.1 b.1 <;> simp_all
  · simp only [Bool.not_eq_true', Bool.eq_false_iff] at hab hbc ⊢
    intro hca
    rcases Ident.lt_or_lt_of_lt (b := b.1) hca with hcb | hba
    · exact hbc hcb
    · exact hab hba
  · have hkey : a.1 = b.1 := by
      by_contra hne
      simp only [Bool.not_eq_true', Bool.eq_false_iff] at hab hba
      rcases Ident.lt_connex hne with hlt | hlt
      · exact hba hlt
      · exact hab hlt
    exact List.inj_on_of_nodup_map hnd' ha hb hkey

variable {res : Resolver} {user : Nat}

theorem applyCorrection_grows {acc acc' : List Step × List Ident × List String}
    {e : Ident × Correction} (h : applyCorrection res user acc e = .ok acc') {x : Ident}
    (hx : x ∈ acc.2.1) : x ∈ acc'.2.1 := by
  obtain ⟨steps, corrected, messages⟩ := acc
  obtain ⟨key, c⟩ := e
  unfold applyCorrection at h
  dsimp only at h
  split at h
  · cases h
    exact hx
  split at h
  · cases h
    exact hx
  · cases h
  · cases h
    exact (Ident.mem_foldl_insertSorted _ _).2 (.inl hx)

theorem foldlM_applyCorrection_grows {cs : List (Ident × Correction)}
    {acc r : List Step × List Ident × List String} (h : cs.foldlM (applyCorrection res user) acc = .ok r)
    {x : Ident} (hx : x ∈ acc.2.1) : x ∈ r.2.1 :=
  foldlM_invariant (fun a : List Step × List Ident × List String => x ∈ a.2.1) h hx
    fun _ _ _ _ hx' hstep => applyCorrection_grows hstep hx'

/-- A correction that moved no step either found no step under its key or no bonus at its
facility, and does the same to steps that agree but for their counts. -/
theorem applyCorrection_again {L L₂ : List Step} {K : List Ident} {m : List String}
    {e : Ident × Correction} {acc' : List Step × List Ident × List String}
    (h : applyCorrection res user (L, K, m) e = .ok acc') (hL : L₂.map sansCounts = L.map sansCounts)
    (m₂ : List String) :
    (acc'.1 = L ∧ acc'.2.1 = K ∧ ∃ m₂', applyCorrection res user (L₂, K, m₂) e = .ok (L₂, K, m₂')) ∨
      ∃ x, x ∈ acc'.2.1 := by
  obtain ⟨key, c⟩ := e
  unfold applyCorrection at h ⊢
  dsimp only at h ⊢
  split at h
  · rename_i hnone
    cases h
    have hnone₂ : L₂.find? (underKey key) = none := by
      cases h₂ : L₂.find? (underKey key) with
      | none => rfl
      | some b =>
        obtain ⟨a, ha, -⟩ := exists_find?_of_map_view hL (underKey_sansCounts key) h₂
        rw [hnone] at ha
        cases ha
    rw [hnone₂]
    exact .inl ⟨rfl, rfl, m₂, rfl⟩
  rename_i head hhead
  obtain ⟨head₂, hhead₂, hsame⟩ := exists_find?_of_map_view hL.symm (underKey_sansCounts key) hhead
  split at h
  · rename_i err hunavailable
    cases h
    have hproduct : head₂.product = head.product := (congrArg Step.product hsame :)
    have hactivity : head₂.activity = head.activity := (congrArg Step.activity hsame :)
    rw [hhead₂]
    dsimp only
    rw [hproduct, hactivity, hunavailable]
    exact .inl ⟨rfl, rfl, _, rfl⟩
  · cases h
  · cases h
    refine .inr ⟨head.id, (Ident.mem_foldl_insertSorted _ _).2 (.inr ⟨head, ?_, rfl⟩)⟩
    exact List.mem_filter.2 ⟨List.mem_of_find?_eq_some hhead, List.find?_some hhead⟩

/-- Corrections that corrected no step leave the steps as they are, and do the same to steps
that agree with them but for their counts. -/
theorem foldlM_applyCorrection_again :
    ∀ (cs : List (Ident × Correction)) (L L₂ : List Step) (K : List Ident) (m m₂ : List String)
      (r : List Step × List Ident × List String), L₂.map sansCounts = L.map sansCounts →
      cs.foldlM (applyCorrection res user) (L, K, m) = .ok r → r.2.1 = [] →
      r.1 = L ∧ ∃ m₂', cs.foldlM (applyCorrection res user) (L₂, K, m₂) = .ok (L₂, K, m₂')
  | [], _, _, _, _, m₂, _, _, h, _ => by
    cases h
    exact ⟨rfl, m₂, rfl⟩
  | e :: cs, L, L₂, K, m, m₂, r, hL, h, hnil => by
    rw [List.foldlM_cons] at h
    obtain ⟨⟨L₁, K₁, m₁⟩, h₁, hrest⟩ := ok_of_bind h
    rcases applyCorrection_again h₁ hL m₂ with ⟨hL₁, hK₁, m₂', h₂⟩ | ⟨x, hx⟩
    · dsimp only at hL₁ hK₁
      subst hL₁ hK₁
      obtain ⟨hr, m₂'', hrest₂⟩ := foldlM_applyCorrection_again cs L₁ L₂ K₁ m₁ m₂' r hL hrest hnil
      refine ⟨hr, m₂'', ?_⟩
      rw [List.foldlM_cons, h₂]
      exact hrest₂
    · exact absurd (hnil ▸ foldlM_applyCorrection_grows hrest hx) List.not_mem_nil

end Corrections

section Plan

/-- The order of matching reads the steps up to their counts. -/
theorem matchOrder_congr {S T : List Step} (h : T.map sansCounts = S.map sansCounts) :
    matchOrder T = matchOrder S := by
  have hlen : T.length = S.length := by simpa using congrArg List.length h
  have hat := sansCounts_stepAt_of_map h
  have hdepth : ∀ x, (T.getD x default).depth = (S.getD x default).depth := fun x =>
    (congrArg Step.depth (hat x) :)
  have hrecipe : ∀ x, (T.getD x default).recipe = (S.getD x default).recipe := fun x =>
    (congrArg Step.recipe (hat x) :)
  have hactivity : ∀ x, (T.getD x default).activity = (S.getD x default).activity := fun x =>
    (congrArg Step.activity (hat x) :)
  have hindex : ∀ x, ((T.getD x default).split.map (·.index)).getD 0 =
      ((S.getD x default).split.map (·.index)).getD 0 := fun x => by
    have hsplit := sansCounts_splitIndex (stepAt T x)
    rw [hat x, sansCounts_splitIndex] at hsplit
    exact hsplit.symm
  simp only [matchOrder, hlen, hdepth, hrecipe, hactivity, hindex]

variable {config : EngineConfig} {plan : Plan} {book : RecipeBook} {scope : MatchScope}
  {claimed claimed' : List Nat} {world : World} {res : Resolver} {o : MatchOutcome}
  (hpolicy : config.matchPolicy = .onAnyDifference) (hids : (plan.steps.map Step.id).Nodup)
  (hjobs : (world.jobs.map (·.id)).Nodup)
include hpolicy hids hjobs

/-- Matching a plan again, right after a pass that corrected no facility, with the jobs that
pass claimed before it claimed again: every step has the runs its jobs ran, so the second pass
takes the same jobs, in some order, adapts nothing, corrects nothing, and hands the steps back
as they are. -/
theorem matchPlan_again (hruns : ∀ u ∈ plan.steps, passesByKind u = false → 0 < u.runs)
    (hpos : ∀ j ∈ world.jobs, 0 < j.runs)
    (h : matchPlan config plan book scope claimed world res = .ok (o, claimed'))
    (hcorr : o.corrected = []) {claimed₂ : List Nat} (hclaimed : ∀ x, x ∈ claimed₂ ↔ x ∈ claimed)
    (book₂ : RecipeBook) :
    ∃ o₂ claimed₂', matchPlan config { plan with steps := o.steps } book₂ scope claimed₂ world res =
        .ok (o₂, claimed₂') ∧ o₂.plan = plan.id ∧ o₂.steps = o.steps ∧ o₂.adapted = [] ∧
      o₂.corrected = [] ∧ o₂.assignments.Perm o.assignments ∧
      ∀ x, x ∈ claimed₂' ↔ x ∈ claimed' := by
  obtain ⟨st, mid, corrected, messages, hst, hc, hms, -, hcorrected, hclaims, hsteps⟩ := matchPlan_stages h
  obtain ⟨done, hp⟩ := matchOrder_passed hpolicy hids hjobs hst
  have hnil : corrected = [] := hcorrected ▸ hcorr
  have hmid : mid = st.steps :=
    (foldlM_applyCorrection_again _ st.steps st.steps [] st.messages st.messages _ rfl hc hnil).1
  have hT : o.steps.map sansCounts = plan.steps.map sansCounts := by
    rcases hsteps with ⟨-, hout⟩ | ⟨P, r, -, hr, hout⟩
    · rw [hout, hmid]
      exact hp.frame
    · rw [hout, (recalculate_keeps_pinned hr).1, hmid]
      exact hp.frame
  have hTruns : ∀ p < plan.steps.length, 0 < matchedTotal st.assignments (stepAt plan.steps p).id →
      (stepAt o.steps p).runs = matchedTotal st.assignments (stepAt plan.steps p).id := by
    intro p hpl hpos'
    rw [← hms] at hpos' ⊢
    exact matchPlan_runs_of_matched hpolicy hids hjobs h hpl hpos'
  have hidsT : (o.steps.map Step.id).Nodup := by
    have hmap : o.steps.map Step.id = plan.steps.map Step.id := by
      have hview := congrArg (List.map Step.id) hT
      rw [List.map_map, List.map_map] at hview
      exact hview
    exact hmap ▸ hids
  obtain ⟨st₂, hst₂, hsteps₂, hadapted₂, hassign₂, hclaims₂⟩ := foldlM_matchStep_again hpolicy hids
    hjobs hpos hruns hT hTruns (matchOrder plan.steps) [] _ { steps := o.steps, claimed := claimed₂ }
    (matchOrder_nodup _) (fun i hi => ⟨lt_of_mem_matchOrder hi, List.not_mem_nil⟩)
    (passed_start _ claimed) hst rfl (List.Perm.refl _) hclaimed
  have hst₂' : (matchOrder o.steps).foldlM (Fabrication.matchStep config plan.id world scope)
      ({ steps := o.steps, claimed := claimed₂ } : MatchState) = .ok st₂ := by
    rw [matchOrder_congr hT]
    exact hst₂
  obtain ⟨done₂, hp₂⟩ := matchOrder_passed hpolicy hidsT hjobs hst₂'
  have hcorrections : sortBy (fun a b => !(Ident.lt b.1 a.1)) st₂.corrections =
      sortBy (fun a b => !(Ident.lt b.1 a.1)) st.corrections :=
    sortBy_corrections_eq hp.keys (perm_of_correctionFor hp.keys hp₂.keys fun k =>
      (hp.latest k).correctionFor_eq hjobs (hp₂.latest k) (driftsUnder_iff hT hassign₂))
  obtain ⟨-, messages₂, hc₂⟩ := foldlM_applyCorrection_again _ st.steps o.steps [] st.messages
    st₂.messages _ (hT.trans hp.frame.symm) hc hnil
  refine ⟨⟨plan.id, o.steps, st₂.assignments, [], [], [], messages₂⟩, st₂.claimed, ?_, rfl, rfl, rfl,
    rfl, hms ▸ hassign₂, fun x => hclaims ▸ hclaims₂ x⟩
  unfold matchPlan
  dsimp only
  rw [matchOrder_congr hT, hst₂]
  dsimp only [Outcome.ofFault, Except.mapError, bind, Except.bind]
  rw [hcorrections, hsteps₂, hc₂]
  dsimp only
  rw [hadapted₂]
  rfl

end Plan

end Fabrication
