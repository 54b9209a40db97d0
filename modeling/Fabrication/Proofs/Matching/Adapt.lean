import Mathlib
import Fabrication.Proofs.Matching.Jobs
import Fabrication.Proofs.Step.Restore

/-!
# What a matching pass does to each step

A matching pass visits the steps of a plan once each and leaves every step as `Step.adaptTo`
says: a step whose jobs ran a positive number of runs other than its own takes those runs and
the units they make, held at the largest count; any other step is left alone. The runs that
count are those of the matches naming the step (`matchedTotal`), so this needs the steps to
have distinct identifiers.

Along the way the pass proposes facility corrections, one per split group or unsplit step
(`Step.correctionKey`). The proposal kept for a key is that of the latest job, by start and
then id, that ran in another facility than the step it was matched to (`LatestUnder`).
`MatchState.Passed` collects these facts; `foldlM_matchStep_passed` carries them over the pass.
-/

namespace Fabrication

open Step

/-- The runs of the jobs matched to a step. -/
def matchedTotal (ms : List StepMatch) (id : Ident) : Nat :=
  ((ms.filter (·.step == id)).map (·.runs)).sum

/-- The correction proposed under a key, if any. -/
def correctionFor (cs : List (Ident × Correction)) (key : Ident) : Option Correction :=
  (cs.find? (·.1 == key)).map (·.2)

namespace Step

/-- The key facility corrections of a step are gathered under: its split group, or the step
itself when it is not split. -/
def correctionKey (s : Step) : Ident := s.group.getD s.id

/-- A step as matching leaves it: with the matched runs, and the units they make held at the
largest count, when its jobs ran a positive number of runs other than its own. -/
def adaptTo (s : Step) (matched : Nat) : Step :=
  if 0 < matched ∧ matched ≠ s.runs then
    { s with runs := matched, quantity := Count.satMul matched s.out }
  else s

@[simp] theorem adaptTo_zero (s : Step) : s.adaptTo 0 = s := by
  simp [adaptTo]

/-- Adapting changes the runs and the quantity of a step only. -/
theorem sansCounts_adaptTo (s : Step) (matched : Nat) : sansCounts (s.adaptTo matched) = sansCounts s := by
  unfold adaptTo
  split <;> rfl

theorem adaptTo_runs (s : Step) (matched : Nat) :
    (s.adaptTo matched).runs = if 0 < matched then matched else s.runs := by
  unfold adaptTo
  by_cases hm : 0 < matched
  · by_cases hr : matched = s.runs
    · simp [hr]
    · simp [hm, hr]
  · simp [hm]

end Step

/-- A job that ran in another facility than the step it is matched to, a step under `key`. -/
def DriftsUnder (steps : List Step) (ms : List StepMatch) (key : Ident) (j : Job) : Prop :=
  ∃ m ∈ ms, m.job = j.id ∧ ∃ u ∈ steps, u.id = m.step ∧ u.correctionKey = key ∧
    ∃ f, j.facility = some f ∧ some f ≠ u.facility

/-- A correction at least as late as a job, by start and then by id. -/
def Correction.Covers (c : Correction) (j : Job) : Prop :=
  j.started < c.started ∨ (j.started = c.started ∧ j.id ≤ c.job)

/-- The correction proposed under a key comes from a job that drifted under it, and is at
least as late as every such job. -/
def LatestUnder (world : World) (steps : List Step) (ms : List StepMatch)
    (cs : List (Ident × Correction)) (key : Ident) : Prop :=
  (∀ c, correctionFor cs key = some c → ∃ j ∈ world.jobs, DriftsUnder steps ms key j ∧
    j.facility = some c.facility ∧ c.started = j.started ∧ c.job = j.id) ∧
  ∀ j ∈ world.jobs, DriftsUnder steps ms key j → ∃ c, correctionFor cs key = some c ∧ c.Covers j

section Latest

theorem keepLatest_cases (c x : Correction) : keepLatest c x = x ∨ keepLatest c x = c := by
  unfold keepLatest
  split
  · exact .inl rfl
  · exact .inr rfl

theorem Correction.Covers.keepLatest {c : Correction} {j : Job} (h : c.Covers j) (x : Correction) :
    (Fabrication.keepLatest c x).Covers j := by
  unfold Fabrication.keepLatest
  split
  · rename_i hlt
    simp only [Bool.or_eq_true, decide_eq_true_eq, Bool.and_eq_true, beq_iff_eq] at hlt
    unfold Correction.Covers at h ⊢
    omega
  · exact h

theorem covers_keepLatest_proposal (c : Correction) (f : Nat) (j : Job) :
    (keepLatest c ⟨f, j.started, j.id⟩).Covers j := by
  unfold keepLatest Correction.Covers
  split
  · exact .inr ⟨rfl, le_refl _⟩
  · rename_i hlt
    simp only [Bool.or_eq_true, decide_eq_true_eq, Bool.and_eq_true, beq_iff_eq, not_or,
      not_and] at hlt
    omega

variable {world : World} {steps : List Step} {ms : List StepMatch} {key : Ident}

theorem DriftsUnder.append {j : Job} (h : DriftsUnder steps ms key j) (ms' : List StepMatch) :
    DriftsUnder steps (ms ++ ms') key j := by
  obtain ⟨m, hm, rest⟩ := h
  exact ⟨m, List.mem_append_left _ hm, rest⟩

/-- A job drifts under a key with one more match only through that match. -/
theorem DriftsUnder.of_append_single {m : StepMatch} {j : Job}
    (h : DriftsUnder steps (ms ++ [m]) key j) :
    DriftsUnder steps ms key j ∨ (m.job = j.id ∧ ∃ u ∈ steps, u.id = m.step ∧
      u.correctionKey = key ∧ ∃ f, j.facility = some f ∧ some f ≠ u.facility) := by
  obtain ⟨m', hm', rest⟩ := h
  rcases List.mem_append.1 hm' with hm' | hm'
  · exact .inl ⟨m', hm', rest⟩
  · rw [List.mem_singleton.1 hm'] at rest
    exact .inr rest

/-- Recording a match whose job ran in its step's facility keeps the proposals latest. -/
theorem LatestUnder.record_home (hids : (steps.map Step.id).Nodup)
    (hjobs : (world.jobs.map (·.id)).Nodup) {cs : List (Ident × Correction)} {u : Step}
    (hu : u ∈ steps) {j : Job} (hj : j ∈ world.jobs) {m : StepMatch} (hstep : m.step = u.id)
    (hjob : m.job = j.id) (hhome : ∀ f, j.facility = some f → some f = u.facility)
    (hL : LatestUnder world steps ms cs key) : LatestUnder world steps (ms ++ [m]) cs key := by
  refine ⟨fun c hc => ?_, fun j' hj' hdrift => ?_⟩
  · obtain ⟨j', hj', hd, rest⟩ := hL.1 c hc
    exact ⟨j', hj', hd.append _, rest⟩
  · rcases hdrift.of_append_single with hd | ⟨hjob', u', hu', hid, -, f, hf, hne⟩
    · exact hL.2 j' hj' hd
    · have hjj : j' = j := List.inj_on_of_nodup_map hjobs hj' hj (hjob'.symm.trans hjob)
      have huu : u' = u := List.inj_on_of_nodup_map hids hu' hu (hid.trans hstep)
      subst hjj huu
      exact absurd (hhome f hf) hne

/-- Recording a match whose job ran in another facility `f` keeps the proposals latest, when the
proposal under the step's key becomes one at least as late as before and as the job. -/
theorem LatestUnder.record_drift (hids : (steps.map Step.id).Nodup)
    (hjobs : (world.jobs.map (·.id)).Nodup) {cs cs' : List (Ident × Correction)} {u : Step}
    (hu : u ∈ steps) {j : Job} (hj : j ∈ world.jobs) {m : StepMatch} (hstep : m.step = u.id)
    (hjob : m.job = j.id) {f : Nat} (hf : j.facility = some f) (hne : some f ≠ u.facility)
    {c' : Correction} (hput : ∀ k, correctionFor cs' k =
      if k = u.correctionKey then some c' else correctionFor cs k)
    (hfrom : c' = ⟨f, j.started, j.id⟩ ∨ correctionFor cs u.correctionKey = some c')
    (hlate : c'.Covers j) (hmono : ∀ c, correctionFor cs u.correctionKey = some c →
      ∀ j', c.Covers j' → c'.Covers j')
    (hL : LatestUnder world steps ms cs key) : LatestUnder world steps (ms ++ [m]) cs' key := by
  have hdrift : DriftsUnder steps (ms ++ [m]) u.correctionKey j :=
    ⟨m, List.mem_append_right _ (List.mem_singleton_self m), hjob, u, hu, hstep.symm, rfl, f, hf, hne⟩
  refine ⟨fun c hc => ?_, fun j' hj' hd => ?_⟩
  · rw [hput] at hc
    split at hc
    · rename_i hk
      subst hk
      cases hc
      rcases hfrom with rfl | hold
      · exact ⟨j, hj, hdrift, hf, rfl, rfl⟩
      · obtain ⟨j'', hj'', hd, rest⟩ := hL.1 _ hold
        exact ⟨j'', hj'', hd.append _, rest⟩
    · obtain ⟨j'', hj'', hd, rest⟩ := hL.1 c hc
      exact ⟨j'', hj'', hd.append _, rest⟩
  · rw [hput]
    rcases hd.of_append_single with hd | ⟨hjob', u', hu', hid, hkey, -⟩
    · obtain ⟨c, hc, hcov⟩ := hL.2 j' hj' hd
      split
      · rename_i hk
        subst hk
        exact ⟨c', rfl, hmono c hc j' hcov⟩
      · exact ⟨c, hc, hcov⟩
    · have hjj : j' = j := List.inj_on_of_nodup_map hjobs hj' hj (hjob'.symm.trans hjob)
      have huu : u' = u := List.inj_on_of_nodup_map hids hu' hu (hid.trans hstep)
      subst hjj huu
      rw [if_pos hkey.symm]
      exact ⟨c', rfl, hlate⟩

end Latest

section Totals

theorem matchedTotal_append (ms ms' : List StepMatch) (id : Ident) :
    matchedTotal (ms ++ ms') id = matchedTotal ms id + matchedTotal ms' id := by
  simp [matchedTotal, List.filter_append]

theorem matchedTotal_eq_zero {ms : List StepMatch} {id : Ident} (h : ∀ m ∈ ms, m.step ≠ id) :
    matchedTotal ms id = 0 := by
  have hnil : ms.filter (·.step == id) = [] :=
    List.filter_eq_nil_iff.2 fun m hm => by simpa using h m hm
  simp [matchedTotal, hnil]

/-- The matches recorded for the jobs taken by one step add their runs to that step only. -/
theorem matchedTotal_records (taken : List Job) (mk : Job → StepMatch) {u : Ident}
    (hmk : ∀ j, (mk j).step = u ∧ (mk j).runs = j.runs) (id : Ident) :
    matchedTotal (taken.map mk) id = if id = u then (taken.map (·.runs)).sum else 0 := by
  induction taken with
  | nil => simp [matchedTotal]
  | cons j taken ih =>
    have hcons : matchedTotal (mk j :: taken.map mk) id =
        (if (mk j).step = id then (mk j).runs else 0) + matchedTotal (taken.map mk) id := by
      by_cases hs : (mk j).step = id <;> simp [matchedTotal, hs]
    rw [List.map_cons, hcons, ih, (hmk j).1, (hmk j).2]
    by_cases hid : id = u
    · subst hid
      simp
    · simp [hid, Ne.symm hid]

end Totals

theorem MatchPolicy.shouldAdapt_onAnyDifference (planned matched : Nat) :
    MatchPolicy.onAnyDifference.shouldAdapt planned matched = true ↔
      0 < matched ∧ matched ≠ planned := by
  unfold MatchPolicy.shouldAdapt
  by_cases h0 : matched = 0
  · simp [h0]
  · simp [h0, Nat.pos_of_ne_zero h0]

/-- A fold over taken jobs whose every step records one match and touches neither the steps
nor the adapted set. -/
theorem foldl_records {F : MatchState → Job → MatchState} (mk : Job → StepMatch)
    {l : List Job} {st r : MatchState} (h : l.foldl F st = r)
    (hF : ∀ st j, (F st j).steps = st.steps ∧ (F st j).adapted = st.adapted ∧
      (F st j).assignments = st.assignments ++ [mk j]) :
    r.steps = st.steps ∧ r.adapted = st.adapted ∧ r.assignments = st.assignments ++ l.map mk := by
  subst h
  induction l generalizing st with
  | nil => simp
  | cons j l ih =>
    obtain ⟨hs, ha, hm⟩ := hF st j
    obtain ⟨ihs, iha, ihm⟩ := @ih (F st j)
    exact ⟨ihs.trans hs, iha.trans ha, by simp [ihm, hm]⟩

namespace MatchState

/-- What a matching pass over `steps₀` has done after visiting the positions `done`: each step
is adapted to the runs matched to it, the matches name visited steps, the adapted set holds the
adapted steps, every step's matched runs fit in a count, and the proposed corrections, one per
key, are the latest drifts. -/
structure Passed (world : World) (steps₀ : List Step) (done : List Nat) (st : MatchState) :
    Prop where
  length : st.steps.length = steps₀.length
  steps : ∀ p < steps₀.length,
    stepAt st.steps p = (stepAt steps₀ p).adaptTo (matchedTotal st.assignments (stepAt steps₀ p).id)
  named : ∀ m ∈ st.assignments, ∃ p ∈ done, p < steps₀.length ∧ m.step = (stepAt steps₀ p).id ∧
    (stepAt steps₀ p).isCopy = false
  adapted : ∀ id, id ∈ st.adapted ↔ ∃ p < steps₀.length, (stepAt steps₀ p).id = id ∧
    0 < matchedTotal st.assignments id ∧ matchedTotal st.assignments id ≠ (stepAt steps₀ p).runs
  fits : ∀ id, matchedTotal st.assignments id < Count.bound
  keys : (st.corrections.map (·.1)).Nodup
  latest : ∀ key, LatestUnder world steps₀ st.assignments st.corrections key

variable {world : World} {S : List Step}

theorem passed_start (steps : List Step) (claimed : List Nat) :
    Passed world steps [] { steps, claimed } where
  length := rfl
  steps p _ := by simp [matchedTotal]
  named _ hm := by cases hm
  adapted id := by simp [matchedTotal]
  fits _ := by simp [matchedTotal, Count.bound]
  keys := List.nodup_nil
  latest _ := ⟨fun c hc => by simp [correctionFor] at hc,
    fun _ _ hd => by obtain ⟨m, hm, -⟩ := hd; cases hm⟩

theorem Passed.visit {done : List Nat} {st : MatchState} (hp : Passed world S done st) (i : Nat) :
    Passed world S (i :: done) st := by
  refine ⟨hp.length, hp.steps, fun m hm => ?_, hp.adapted, hp.fits, hp.keys, hp.latest⟩
  obtain ⟨p, hp', rest⟩ := hp.named m hm
  exact ⟨p, List.mem_cons_of_mem _ hp', rest⟩

/-- Before its turn a step has no matches, so the pass still holds it as planned. -/
theorem Passed.unvisited {done : List Nat} {st : MatchState} (hp : Passed world S done st)
    (hids : (S.map Step.id).Nodup) {index : Nat} (hi : index < S.length) (hnew : index ∉ done) :
    matchedTotal st.assignments (stepAt S index).id = 0 ∧ stepAt st.steps index = stepAt S index := by
  have hzero : matchedTotal st.assignments (stepAt S index).id = 0 := by
    refine matchedTotal_eq_zero fun m hm hstep => ?_
    obtain ⟨q, hq, hqlen, hqid, -⟩ := hp.named m hm
    exact hnew (eq_of_id_eq hids hqlen hi (hqid.symm.trans hstep) ▸ hq)
  refine ⟨hzero, ?_⟩
  rw [hp.steps index hi, hzero, adaptTo_zero]

end MatchState

section Corrections

variable {world : World} {steps : List Step} {ms : List StepMatch} {cs : List (Ident × Correction)}
  {k : Ident}

theorem correctionFor_putEntry (k : Ident) (v : Correction) (cs : List (Ident × Correction))
    (K : Ident) : correctionFor (putEntry k v cs) K = if K = k then some v else correctionFor cs K :=
  lookup_putEntry k K v cs

theorem correctionFor_append_new (hnone : cs.find? (·.1 == k) = none) (v : Correction) (K : Ident) :
    correctionFor (cs ++ [(k, v)]) K = if K = k then some v else correctionFor cs K := by
  unfold correctionFor
  rw [List.find?_append]
  by_cases hK : K = k
  · subst hK
    simp [hnone]
  · simp [hK, Ne.symm hK]

theorem correctionFor_of_find? {e : Ident × Correction} (he : cs.find? (·.1 == k) = some e) :
    correctionFor cs k = some e.2 := by
  simp [correctionFor, he]

/-- Replacing the proposal of a key keeps the keys. -/
theorem keys_putEntry_of_find? {e : Ident × Correction} (he : cs.find? (·.1 == k) = some e)
    (v : Correction) : (putEntry k v cs).map (·.1) = cs.map (·.1) := by
  have hek := List.find?_some he
  have hany : cs.any (·.1 == k) = true := List.any_eq_true.2 ⟨e, List.mem_of_find?_eq_some he, hek⟩
  unfold putEntry
  rw [if_pos hany, List.map_map]
  refine List.map_congr_left fun x _ => ?_
  by_cases hx : x.1 = k <;> simp [hx]

/-- A key without a proposal is new to the keys. -/
theorem keys_append_new (hnone : cs.find? (·.1 == k) = none) (hnd : (cs.map (·.1)).Nodup)
    (v : Correction) : ((cs ++ [(k, v)]).map (·.1)).Nodup := by
  rw [List.map_append]
  refine List.nodup_append.2 ⟨hnd, List.nodup_singleton _, fun a ha b hb hab => ?_⟩
  obtain ⟨x, hx, rfl⟩ := List.mem_map.1 ha
  rw [List.map_singleton, List.mem_singleton] at hb
  subst hb
  exact absurd (List.find?_eq_none.1 hnone x hx) (by simp [hab])

/-- The proposals after recording job `j` for step `u`: a job run in another facility than the
step's proposes that facility under the step's key, kept when it is later than the proposal
already there; any other job proposes nothing. -/
def proposeDrift (u : Step) (cs : List (Ident × Correction)) (j : Job) : List (Ident × Correction) :=
  match j.facility with
  | some f =>
    if some f == u.facility then cs
    else match cs.find? (·.1 == u.correctionKey) with
      | some (_, current) => putEntry u.correctionKey (keepLatest current ⟨f, j.started, j.id⟩) cs
      | none => cs ++ [(u.correctionKey, ⟨f, j.started, j.id⟩)]
  | none => cs

/-- Proposing the drift of a job recorded for a step keeps one proposal per key, the latest drift
of each. -/
theorem latest_proposeDrift (hids : (steps.map Step.id).Nodup)
    (hjobs : (world.jobs.map (·.id)).Nodup) {u : Step} (hu : u ∈ steps) {j : Job}
    (hj : j ∈ world.jobs) {m : StepMatch} (hstep : m.step = u.id) (hjob : m.job = j.id)
    (hkeys : (cs.map (·.1)).Nodup) (hlatest : ∀ key, LatestUnder world steps ms cs key) :
    ((proposeDrift u cs j).map (·.1)).Nodup ∧
      ∀ key, LatestUnder world steps (ms ++ [m]) (proposeDrift u cs j) key := by
  unfold proposeDrift
  split
  · rename_i f hf
    split
    · rename_i hhome
      have hsame : some f = u.facility := by simpa using hhome
      refine ⟨hkeys, fun key => (hlatest key).record_home hids hjobs hu hj hstep hjob ?_⟩
      intro f' hf'
      rw [hf] at hf'
      cases hf'
      exact hsame
    · rename_i hdrift
      have hne : some f ≠ u.facility := by simpa using hdrift
      split
      · rename_i e current hfind
        have hold : correctionFor cs u.correctionKey = some current := correctionFor_of_find? hfind
        refine ⟨(keys_putEntry_of_find? hfind _).symm ▸ hkeys, fun key =>
          (hlatest key).record_drift hids hjobs hu hj hstep hjob hf hne
            (correctionFor_putEntry _ _ _) ?_ (covers_keepLatest_proposal _ _ _) ?_⟩
        · rcases keepLatest_cases current ⟨f, j.started, j.id⟩ with hk | hk
          · exact .inl hk
          · exact .inr (by rw [hk]; exact hold)
        · intro c hc j' hcov
          rw [hold] at hc
          cases hc
          exact hcov.keepLatest _
      · rename_i hnone
        refine ⟨keys_append_new hnone hkeys _, fun key =>
          (hlatest key).record_drift hids hjobs hu hj hstep hjob hf hne
            (correctionFor_append_new hnone _) (.inl rfl) (.inr ⟨rfl, le_refl _⟩) ?_⟩
        intro c hc
        rw [correctionFor, hnone, Option.map_none] at hc
        cases hc
  · rename_i hnone
    refine ⟨hkeys, fun key => (hlatest key).record_home hids hjobs hu hj hstep hjob ?_⟩
    intro f' hf'
    rw [hnone] at hf'
    cases hf'

/-- A fold over the jobs a step took, each recording its match and proposing its drift, keeps
one proposal per key, the latest drift of each. -/
theorem foldl_proposals_latest {F : MatchState → Job → MatchState} (mk : Job → StepMatch)
    (hids : (steps.map Step.id).Nodup) (hjobs : (world.jobs.map (·.id)).Nodup) {u : Step}
    (hu : u ∈ steps) {l : List Job} (hl : ∀ j ∈ l, j ∈ world.jobs)
    (hmk : ∀ j, (mk j).step = u.id ∧ (mk j).job = j.id)
    (hF : ∀ st j, (F st j).assignments = st.assignments ++ [mk j] ∧
      (F st j).corrections = proposeDrift u st.corrections j)
    {st r : MatchState} (h : l.foldl F st = r) (hkeys : (st.corrections.map (·.1)).Nodup)
    (hlatest : ∀ key, LatestUnder world steps st.assignments st.corrections key) :
    (r.corrections.map (·.1)).Nodup ∧ ∀ key, LatestUnder world steps r.assignments r.corrections key := by
  subst h
  refine foldl_invariant (fun acc : MatchState => (acc.corrections.map (·.1)).Nodup ∧
    ∀ key, LatestUnder world steps acc.assignments acc.corrections key) ⟨hkeys, hlatest⟩ ?_
  rintro acc j hj ⟨hk, hL⟩
  rw [(hF acc j).1, (hF acc j).2]
  exact latest_proposeDrift hids hjobs hu (hl j hj) (hmk j).1 (hmk j).2 hk hL

end Corrections

section Pass

open MatchState

variable {world : World} {S : List Step} {config : EngineConfig} {plan : Ident}
  {scope : MatchScope}

/-- Matching the step at a position not visited before keeps the pass's facts, the position
now visited: the step is adapted to the runs of the jobs it took, and the latest drift of its
key is proposed. -/
theorem MatchState.Passed.matchStep (hpolicy : config.matchPolicy = .onAnyDifference)
    (hids : (S.map Step.id).Nodup) (hjobs : (world.jobs.map (·.id)).Nodup)
    {done : List Nat} {st st' : MatchState} {index : Nat} (hi : index < S.length)
    (hnew : index ∉ done) (hp : Passed world S done st)
    (h : Fabrication.matchStep config plan world scope st index = .ok st') :
    Passed world S (index :: done) st' := by
  have hu : stepAt S index ∈ S := stepAt_mem hi
  -- nothing is matched to the step before its turn, so the pass finds it as planned
  obtain ⟨hzero, hat⟩ := hp.unvisited hids hi hnew
  unfold Fabrication.matchStep at h
  dsimp only at h
  rw [show st.steps.getD index default = stepAt S index from hat] at h
  split at h
  · cases h
    exact hp.visit index
  rename_i hskip
  split at h
  · cases h
    exact hp.visit index
  set taken := selectJobs ((candidateJobs world scope (stepAt S index).recipe).filter
    fun j => j.activity == (stepAt S index).activity && !st.claimed.contains j.id)
    (stepAt S index).runs with htaken
  obtain ⟨matched, hmatched, h⟩ := ok_of_bind h
  generalize hr : List.foldl _ st _ = r at h
  set mk : Job → StepMatch :=
    fun j => ⟨plan, (stepAt S index).id, j.id, j.runs, driftOf (stepAt S index) j⟩ with hmk
  obtain ⟨hrs, hra, hrm⟩ := foldl_records mk hr fun r j => by
    split
    · split
      · exact ⟨rfl, rfl, rfl⟩
      · exact ⟨rfl, rfl, rfl⟩
    · exact ⟨rfl, rfl, rfl⟩
  have hworld : ∀ j ∈ taken, j ∈ world.jobs := fun j hj =>
    (mem_candidateJobs (List.mem_filter.1 ((selectJobs_subperm _ _).subset hj)).1).1
  have hcorr := foldl_proposals_latest mk hids hjobs hu hworld (fun _ => ⟨rfl, rfl⟩)
    (fun r j => by
      refine ⟨by split <;> (try split) <;> rfl, ?_⟩
      unfold proposeDrift
      cases j.facility with
      | none => rfl
      | some f =>
        dsimp only
        split <;> rfl) hr hp.keys hp.latest
  have hsum : matched = (taken.map (·.runs)).sum := Count.eq_of_sum?_ok hmatched
  have hfit : matched < Count.bound := Count.lt_bound_of_check_ok hmatched
  have htotal : ∀ id, matchedTotal r.assignments id =
      matchedTotal st.assignments id + if id = (stepAt S index).id then matched else 0 := by
    intro id
    rw [hrm, matchedTotal_append, matchedTotal_records taken mk (fun _ => ⟨rfl, rfl⟩), hsum]
  have hown : matchedTotal r.assignments (stepAt S index).id = matched := by
    rw [htotal, hzero, if_pos rfl, Nat.zero_add]
  have hother : ∀ id, id ≠ (stepAt S index).id →
      matchedTotal r.assignments id = matchedTotal st.assignments id := by
    intro id hid
    rw [htotal, if_neg hid, Nat.add_zero]
  have hsteps : ∀ p < S.length, p ≠ index →
      stepAt st.steps p = (stepAt S p).adaptTo (matchedTotal r.assignments (stepAt S p).id) := by
    intro p hp' hpi
    rw [hp.steps p hp', hother _ fun h => hpi (eq_of_id_eq hids hp' hi h)]
  have hnamed : ∀ m ∈ r.assignments, ∃ p ∈ index :: done, p < S.length ∧
      m.step = (stepAt S p).id ∧ (stepAt S p).isCopy = false := by
    intro m hm
    rw [hrm, List.mem_append] at hm
    rcases hm with hm | hm
    · obtain ⟨p, hp', rest⟩ := hp.named m hm
      exact ⟨p, List.mem_cons_of_mem _ hp', rest⟩
    · obtain ⟨j, -, rfl⟩ := List.mem_map.1 hm
      refine ⟨index, List.mem_cons_self, hi, rfl, ?_⟩
      cases hc : (stepAt S index).isCopy
      · rfl
      · rw [hc] at hskip
        simp at hskip
  have hfits : ∀ id, matchedTotal r.assignments id < Count.bound := by
    intro id
    by_cases hid : id = (stepAt S index).id
    · rw [hid, hown]
      exact hfit
    · rw [hother id hid]
      exact hp.fits id
  have hadapted : ∀ id, id ≠ (stepAt S index).id → (id ∈ st.adapted ↔
      ∃ p < S.length, (stepAt S p).id = id ∧ 0 < matchedTotal r.assignments id ∧
        matchedTotal r.assignments id ≠ (stepAt S p).runs) := by
    intro id hid
    rw [hother id hid]
    exact hp.adapted id
  have hnotin : (stepAt S index).id ∉ st.adapted := by
    intro hin
    obtain ⟨p, -, -, hpos, -⟩ := (hp.adapted _).1 hin
    rw [hzero] at hpos
    exact Nat.lt_irrefl 0 hpos
  split at h
  · rename_i hshould
    rw [hpolicy, MatchPolicy.shouldAdapt_onAnyDifference] at hshould
    cases h
    refine ⟨by rw [List.length_set, hrs, hp.length], fun p hp' => ?_, hnamed, fun id => ?_,
      hfits, hcorr.1, hcorr.2⟩
    · have hlen : index < r.steps.length := by rw [hrs, hp.length]; exact hi
      by_cases hpi : p = index
      · subst hpi
        rw [stepAt_set_self hlen, hown, adaptTo, if_pos hshould]
      · rw [stepAt_set_of_ne hpi, hrs]
        exact hsteps p hp' hpi
    · rw [Ident.mem_insertSorted, hra]
      by_cases hid : id = (stepAt S index).id
      · subst hid
        simp only [true_or, true_iff]
        exact ⟨index, hi, rfl, hown ▸ hshould.1, hown ▸ hshould.2⟩
      · rw [or_iff_right hid]
        exact hadapted id hid
  · rename_i hshould
    rw [hpolicy] at hshould
    cases h
    refine ⟨by rw [hrs, hp.length], fun p hp' => ?_, hnamed, fun id => ?_, hfits, hcorr.1, hcorr.2⟩
    · rw [hrs]
      by_cases hpi : p = index
      · subst hpi
        have hkeep : ¬(0 < matched ∧ matched ≠ (stepAt S p).runs) := fun hc =>
          hshould ((MatchPolicy.shouldAdapt_onAnyDifference _ _).2 hc)
        rw [hat, hown, adaptTo, if_neg hkeep]
      · exact hsteps p hp' hpi
    · rw [hra]
      by_cases hid : id = (stepAt S index).id
      · subst hid
        refine ⟨fun hin => absurd hin hnotin, fun ⟨p, hp', hpid, hpos, hne⟩ => ?_⟩
        have hpi : p = index := eq_of_id_eq hids hp' hi hpid
        subst hpi
        rw [hown] at hpos hne
        exact absurd ((MatchPolicy.shouldAdapt_onAnyDifference _ _).2 ⟨hpos, hne⟩) hshould
      · exact hadapted id hid

theorem unvisited_cons {n i : Nat} {l done : List Nat} (hnd : (i :: l).Nodup)
    (hl : ∀ x ∈ i :: l, x < n ∧ x ∉ done) : ∀ x ∈ l, x < n ∧ x ∉ i :: done := by
  intro x hx
  refine ⟨(hl x (List.mem_cons_of_mem _ hx)).1, ?_⟩
  rintro (_ | ⟨_, hx'⟩)
  · exact (List.nodup_cons.1 hnd).1 hx
  · exact (hl x (List.mem_cons_of_mem _ hx)).2 hx'

/-- Matching steps at distinct positions not visited before keeps the pass's facts. -/
theorem foldlM_matchStep_passed (hpolicy : config.matchPolicy = .onAnyDifference)
    (hids : (S.map Step.id).Nodup) (hjobs : (world.jobs.map (·.id)).Nodup) :
    ∀ (l : List Nat) (done : List Nat) (st st' : MatchState), l.Nodup →
      (∀ i ∈ l, i < S.length ∧ i ∉ done) → Passed world S done st →
      l.foldlM (Fabrication.matchStep config plan world scope) st = .ok st' →
      ∃ done', Passed world S done' st'
  | [], done, st, _, _, _, hp, h => by
    cases h
    exact ⟨done, hp⟩
  | i :: l, done, st, st', hnd, hl, hp, h => by
    rw [List.foldlM_cons] at h
    obtain ⟨st₁, h₁, h⟩ := ok_of_bind h
    obtain ⟨hi, hnew⟩ := hl i List.mem_cons_self
    exact foldlM_matchStep_passed hpolicy hids hjobs l (i :: done) st₁ st' (List.nodup_cons.1 hnd).2
      (unvisited_cons hnd hl) (hp.matchStep hpolicy hids hjobs hi hnew h₁) h

theorem matchOrder_nodup (steps : List Step) : (matchOrder steps).Nodup :=
  (sortBy_perm _ _).nodup_iff.2 List.nodup_range

/-- The whole pass over a plan's steps, in matching order, leaves the facts of `Passed`. -/
theorem matchOrder_passed (hpolicy : config.matchPolicy = .onAnyDifference)
    (hids : (S.map Step.id).Nodup) (hjobs : (world.jobs.map (·.id)).Nodup) {claimed : List Nat}
    {st : MatchState}
    (h : (matchOrder S).foldlM (Fabrication.matchStep config plan world scope)
      ({ steps := S, claimed } : MatchState) = .ok st) :
    ∃ done, Passed world S done st :=
  foldlM_matchStep_passed hpolicy hids hjobs _ [] _ st (matchOrder_nodup S)
    (fun _ hi => ⟨lt_of_mem_matchOrder hi, List.not_mem_nil⟩) (passed_start S claimed) h

end Pass

end Fabrication
