import Mathlib
import Fabrication.Proofs.Step.Demand

/-!
# What recalculation computes

`recalculate` walks the logical steps of a plan in recalculation order, reassigning each and
passing its demand on; then it records group totals and lets copy steps follow the build steps
of their recipes.

When every material is the product of at most one logical step and consumers come strictly
before the logical steps they draw on, a consumer is recalculated, with its final runs, before
anything it draws on. A recalculation that succeeds then settles every logical step
(`Logical.Settled`), copies take the runs of the last build logical step of their recipe,
nothing but runs, quantities and group totals changes, and the steps reported changed are
exactly those whose runs or quantity changed (`recalculate_settles`). The proof carries
`PassInvariant` along the loop: the logical steps done are settled for good, and every later one
has received the needs of its consumers among them.

A recalculation can fail even then: a sum of counts that overflows stops it
(`recalculate_overflows_group_total`).
-/

namespace Fabrication

open Step

namespace Step

/-- The last logical step, in recalculation order, that builds with a recipe. -/
def lastBuild (steps : List Step) (recipe : Nat) : Option Logical :=
  ((logicalSteps steps).filter fun l =>
    (l.head steps).activity == .build && (l.head steps).recipe == recipe).getLast?

section Pass

variable {S : List Step} {B : RecipeBook} {P : List Ident}

/-- Demand read back: what a logical step received is the sum of the needs, none when it has no
consumer. -/
theorem getD_of_demand {after : List Step} {cs : List Logical} {l : Logical} {needs : List Nat}
    {v : Option Nat} (hneeds : l.needsOf S B after cs = .ok needs)
    (hv : v = if cs = [] then none else some needs.sum) :
    v.getD 0 = needs.sum ∧ (v.isSome ↔ cs ≠ []) := by
  subst hv
  split
  · rename_i hnil
    subst hnil
    cases hneeds
    simp
  · rename_i hne
    simp [hne]

theorem not_mem_members_of_mem_take {k : Nat} (hk : k < (logicalSteps S).length) {c : Logical}
    (hc : c ∈ (logicalSteps S).take k) {p : Nat} (hp : p ∈ c.members) :
    p ∉ (logicalSteps S)[k].members := by
  obtain ⟨i, hi, rfl⟩ := List.mem_take_iff_getElem.1 hc
  exact disjoint_members _ hk (by omega) hp

theorem consumers_mem_take
    (horder : ∀ c ∈ logicalSteps S, ∀ l ∈ logicalSteps S, c ≠ l → c.consumes S B l = true →
      c.Precedes S l)
    {k : Nat} {l : Logical} (hl : l ∈ (logicalSteps S).take k) {c : Logical}
    (hc : c ∈ l.consumers S B) : c ∈ (logicalSteps S).take k := by
  obtain ⟨j, hj, rfl⟩ := List.mem_take_iff_getElem.1 hl
  rw [← consumersIn_take_self horder] at hc
  exact List.take_subset_take_left _ (by omega) (List.mem_of_mem_filter hc)

/-- What holds once the first `k` logical steps are recalculated into `st`, with marks `d` and
the demand `dem` passed on so far: their members are reassigned and settled for good, and every
later logical step has received the needs of its consumers among them. -/
structure PassInvariant (S : List Step) (B : RecipeBook) (P : List Ident) (k : Nat)
    (st : List Step) (d : DirtySet) (dem : List (Nat × Nat)) : Prop where
  reassigned : Reassigned S st (((logicalSteps S).take k).flatMap (·.members)) {} d
  settled : ∀ l ∈ (logicalSteps S).take k, l.Settled S B P st
  demand : ∀ j (hj : j < (logicalSteps S).length), k ≤ j →
    ∃ needs, (logicalSteps S)[j].needsOf S B st
        (Logical.consumersIn S B ((logicalSteps S).take k) (logicalSteps S)[j]) = .ok needs ∧
      lastValue? dem j =
        if Logical.consumersIn S B ((logicalSteps S).take k) (logicalSteps S)[j] = [] then none
        else some needs.sum

theorem PassInvariant.start : PassInvariant S B P 0 S {} [] where
  reassigned := Reassigned.refl S [] {}
  settled := by simp
  demand j _ _ := ⟨[], by simp [Logical.needsOf, Logical.consumersIn]; rfl,
    by simp [Logical.consumersIn, lastValue?]⟩

/-- Recalculating the `k`-th logical step keeps the invariant, when logical steps make different
products and consumers come strictly before what they consume. -/
theorem PassInvariant.step
    (hprod : ((logicalSteps S).map fun l => (l.head S).product).Nodup)
    (horder : ∀ c ∈ logicalSteps S, ∀ l ∈ logicalSteps S, c ≠ l → c.consumes S B l = true →
      c.Precedes S l)
    {k : Nat} (hk : k < (logicalSteps S).length) {st st' : List Step} {d d' : DirtySet}
    {dem dem' : List (Nat × Nat)} (hinv : PassInvariant S B P k st d dem)
    (h : recalculateLogical B P (ownerOf S (logicalSteps S)) (st, d, dem) ((logicalSteps S)[k], k) =
      .ok (st', d', dem')) :
    PassInvariant S B P (k + 1) st' d' dem' := by
  unfold recalculateLogical at h
  obtain ⟨⟨st₁, d₁⟩, hre, h⟩ := ok_of_bind h
  obtain ⟨dem₁, hpass, h⟩ := ok_of_bind h
  obtain ⟨rfl, rfl, rfl⟩ : st₁ = st' ∧ d₁ = d' ∧ dem₁ = dem' := by
    cases h
    exact ⟨rfl, rfl, rfl⟩
  have hl : (logicalSteps S)[k] ∈ logicalSteps S := List.getElem_mem hk
  have hst : st.map sansCounts = S.map sansCounts := hinv.reassigned.frame
  obtain ⟨hR, hact, hinact⟩ := reassignLogical_spec hre hst (members_nodup hl) (members_ne_nil hl)
    fun m hm => (mem_members hl hm).1
  have hst₁ : st₁.map sansCounts = S.map sansCounts := hR.frame.trans hst
  -- the members of the first `k` logical steps keep their counts
  have hkeep : ∀ c ∈ (logicalSteps S).take k, ∀ p ∈ c.members,
      (stepAt st₁ p).runs = (stepAt st p).runs ∧ (stepAt st₁ p).quantity = (stepAt st p).quantity :=
    fun c hc p hp => ⟨hR.runs p (not_mem_members_of_mem_take hk hc hp),
      hR.quantity p (not_mem_members_of_mem_take hk hc hp)⟩
  have hkeepNeeds : ∀ cs : List Logical, (∀ c ∈ cs, c ∈ (logicalSteps S).take k) →
      ∀ l : Logical, l.needsOf S B st₁ cs = l.needsOf S B st cs :=
    fun cs hcs _ => Logical.needsOf_congr fun c hc p hp => (hkeep c (hcs c hc) p hp).1
  obtain ⟨needs, hneeds, hdem⟩ := hinv.demand k hk le_rfl
  rw [consumersIn_take_self horder hk] at hneeds hdem
  obtain ⟨hgetD, hsome⟩ := getD_of_demand hneeds hdem
  refine ⟨?_, ?_, ?_⟩
  · rw [List.take_succ_eq_append_getElem hk, List.flatMap_append, List.flatMap_singleton]
    refine hinv.reassigned.trans hR fun p hp hmem => ?_
    obtain ⟨c, hc, hpc⟩ := List.mem_flatMap.1 hmem
    exact not_mem_members_of_mem_take hk hc hpc hp
  · intro l hl'
    rw [List.take_succ_eq_append_getElem hk, List.mem_append, List.mem_singleton] at hl'
    rcases hl' with hl' | rfl
    · exact Logical.Settled.congr (hinv.settled l hl') (hkeep l hl') fun c hc p hp =>
        (hkeep c (consumers_mem_take horder hl' hc) p hp).1
    · have hcond : ((logicalSteps S)[k].isPinned S P = false ∧ ((lastValue? dem k).isSome ∨
          0 < (logicalSteps S)[k].sumOf S Step.target)) ↔ (logicalSteps S)[k].Active S B P := by
        rw [hsome]
        exact and_congr_right fun _ => or_comm
      refine ⟨fun hactive => ?_, fun hinactive m hm => ?_⟩
      · obtain ⟨hq, hr⟩ := hact (hcond.2 hactive)
        refine ⟨needs, ?_, by rw [hq, hgetD], hr⟩
        rw [hkeepNeeds _ fun c hc => ?_]
        · exact hneeds
        · rw [← consumersIn_take_self horder hk] at hc
          exact List.mem_of_mem_filter hc
      · obtain rfl := hinact fun hc => hinactive (hcond.1 hc)
        have hnot : m ∉ ((logicalSteps S).take k).flatMap (·.members) := fun hmem => by
          obtain ⟨c, hc, hmc⟩ := List.mem_flatMap.1 hmem
          exact not_mem_members_of_mem_take hk hc hmc hm
        exact ⟨hinv.reassigned.runs m hnot, hinv.reassigned.quantity m hnot⟩
  · intro j hj hkj
    have hjk : j ≠ k := by omega
    obtain ⟨vs, hvs, hval⟩ := passOn_spec hpass hst₁ j
    rw [inputsTo_ownerOf hprod _ hj hjk] at hvs hval
    obtain ⟨old, hold, hdemj⟩ := hinv.demand j hj (by omega)
    obtain ⟨hgetDj, -⟩ := getD_of_demand hold hdemj
    have hold₁ : (logicalSteps S)[j].needsOf S B st₁
        (Logical.consumersIn S B ((logicalSteps S).take k) (logicalSteps S)[j]) = .ok old := by
      rw [hkeepNeeds (Logical.consumersIn S B ((logicalSteps S).take k) (logicalSteps S)[j])
        fun c hc => List.mem_of_mem_filter hc]
      exact hold
    rw [consumersIn_take_succ hk hj hjk]
    by_cases hc : (logicalSteps S)[k].consumes S B (logicalSteps S)[j] = true
    · simp only [hc, if_true] at hvs hval ⊢
      rw [List.mapM_cons, List.mapM_nil] at hvs
      obtain ⟨v, hv, hvs⟩ := ok_of_bind hvs
      cases hvs
      refine ⟨old ++ [v], ?_, ?_⟩
      · unfold Logical.needsOf at hold₁ ⊢
        rw [List.mapM_append, hold₁, List.mapM_cons, List.mapM_nil, hv]
        rfl
      · rw [hval, if_neg (List.cons_ne_nil _ _), if_neg (by simp), hgetDj]
        simp
    · simp only [hc, Bool.false_eq_true, if_false, List.append_nil, if_true] at hvs hval ⊢
      exact ⟨old, hold₁, by rw [hval, hdemj]⟩

end Pass

section Finish

/-- Recording group totals changes no runs or quantities. -/
theorem healGroups_keeps_counts {logical : List Logical} {st st' : List Step}
    (h : healGroups logical st = .ok st') (d : DirtySet) : Reassigned st st' [] d d := by
  unfold healGroups at h
  refine foldlM_invariant (fun x => Reassigned st x [] d d) h (Reassigned.refl st [] d) ?_
  intro x l x' _ hx hstep
  split at hstep
  · cases hstep
    exact hx
  · obtain ⟨total, -, hstep⟩ := ok_of_bind hstep
    cases hstep
    refine foldl_invariant (fun y => Reassigned st y [] d d) hx ?_
    intro y m _ hy
    dsimp only
    split
    · rename_i info hsplit
      exact hy.trans (Reassigned.set_same d (by simp [sansCounts, hsplit]) rfl rfl) (by simp)
    · exact hy

theorem followStep_sansCounts (primaries : List (Nat × Nat)) (s : Step) :
    sansCounts (followStep primaries s) = sansCounts s := by
  unfold followStep
  split <;> rfl

/-- What a copy step whose recipe has build steps is to take. -/
theorem followRuns_of_lastValue {primaries : List (Nat × Nat)} {s : Step} {r : Nat}
    (hc : s.isCopy = true) (h : lastValue? primaries s.recipe = some r) :
    followRuns primaries s = if (s.runs != r || s.quantity != r) = true then some r else none := by
  unfold followRuns
  simp only [hc, h, Bool.not_true, Bool.false_eq_true, if_false]
  rfl

/-- A copy step whose recipe has build steps takes their runs as its runs and quantity. -/
theorem followStep_of_lastValue {primaries : List (Nat × Nat)} {s : Step} {r : Nat}
    (hc : s.isCopy = true) (h : lastValue? primaries s.recipe = some r) :
    (followStep primaries s).runs = r ∧ (followStep primaries s).quantity = r := by
  unfold followStep
  rw [followRuns_of_lastValue hc h]
  split_ifs with hp
  · exact ⟨rfl, rfl⟩
  · simpa using hp

theorem followStep_of_none {primaries : List (Nat × Nat)} {s : Step}
    (h : s.isCopy = false ∨ lastValue? primaries s.recipe = none) : followStep primaries s = s := by
  have hnone : followRuns primaries s = none := by
    unfold followRuns
    rcases h with h | h
    · simp [h]
    · simp [h]
  unfold followStep
  rw [hnone]

/-- A step is moved exactly when it is a copy and its counts change. -/
theorem isSome_followRuns (primaries : List (Nat × Nat)) (s : Step) :
    (followRuns primaries s).isSome ↔ s.isCopy = true ∧
      ((followStep primaries s).runs ≠ s.runs ∨ (followStep primaries s).quantity ≠ s.quantity) := by
  cases hc : s.isCopy
  · simp [followStep_of_none (.inl hc), followRuns, hc]
  · cases hl : lastValue? primaries s.recipe with
    | none => simp [followStep_of_none (.inr hl), followRuns, hc, hl]
    | some r =>
      have hrun := followRuns_of_lastValue hc hl
      unfold followStep
      rw [hrun]
      split_ifs with hp
      · simp only [Bool.or_eq_true, bne_iff_ne, ne_eq] at hp
        simpa [Ne.symm, eq_comm] using hp
      · simp

theorem mem_foldl_mark {id : Ident} (xs : List Step) (d : DirtySet) :
    id ∈ (xs.foldl (fun d s => d.mark s.id) d).ids ↔ id ∈ d.ids ∨ ∃ s ∈ xs, s.id = id := by
  have hmark : (xs.foldl (fun d s => d.mark s.id) d).ids =
      xs.foldl (fun ids s => Ident.insertSorted s.id ids) d.ids :=
    (List.foldl_hom DirtySet.ids fun _ _ => rfl).symm
  rw [hmark, Ident.mem_foldl_insertSorted]

theorem stepAt_map_of_lt {f : Step → Step} {st : List Step} {p : Nat} (hp : p < st.length) :
    stepAt (st.map f) p = f (stepAt st p) := by
  simp [stepAt, hp]

/-- Following copies reassigns the copy steps, marking those whose counts change: a copy whose
recipe has a build logical step takes the runs of the last one as its runs and quantity, and any
other keeps its counts. -/
theorem followCopies_spec {S st st' : List Step} {d d' : DirtySet}
    (h : followCopies (logicalSteps S) st d = .ok (st', d'))
    (hst : st.map sansCounts = S.map sansCounts) :
    Reassigned st st' ((List.range st.length).filter fun p => (stepAt st p).isCopy) d d' ∧
      ∀ p < st.length, (stepAt st p).isCopy = true →
        match lastBuild S (stepAt st p).recipe with
        | some b => (stepAt st' p).runs = b.sumOf st Step.runs ∧
            (stepAt st' p).quantity = b.sumOf st Step.runs
        | none => (stepAt st' p).runs = (stepAt st p).runs ∧
            (stepAt st' p).quantity = (stepAt st p).quantity := by
  unfold followCopies at h
  obtain ⟨primaries, hprim, h⟩ := ok_of_bind h
  obtain ⟨rfl, rfl⟩ : st.map (followStep primaries) = st' ∧
      (st.filter fun s => (followRuns primaries s).isSome).foldl (fun d s => d.mark s.id) d = d' := by
    cases h
    exact ⟨rfl, rfl⟩
  have hhead : ∀ l : Logical, sansCounts (stepAt st (l.members.headD 0)) = sansCounts (l.head S) :=
    fun l => sansCounts_stepAt_of_map hst _
  have hbuild : ((logicalSteps S).filter fun l => (stepAt st (l.members.headD 0)).activity == .build) =
      (logicalSteps S).filter fun l => (l.head S).activity == .build :=
    List.filter_congr fun l _ => by rw [show (stepAt st (l.members.headD 0)).activity =
      (l.head S).activity from congrArg (·.activity) (hhead l)]
  rw [hbuild] at hprim
  have hrel := mapM_forall₂ (fun (l : Logical) (y : Nat × Nat) =>
      ((l.head S).recipe, l.sumOf st Step.runs) = y) hprim fun l y _ hy => by
    obtain ⟨total, htotal, hy⟩ := ok_of_bind hy
    cases hy
    rw [Count.eq_of_sum?_ok htotal, show (stepAt st (l.members.headD 0)).recipe = (l.head S).recipe
      from congrArg (·.recipe) (hhead l)]
    rfl
  have hprim' : ((logicalSteps S).filter fun l => (l.head S).activity == .build).map
      (fun l => ((l.head S).recipe, l.sumOf st Step.runs)) = primaries := by
    rw [← List.forall₂_eq_eq_eq]
    exact List.forall₂_map_left_iff.2 hrel
  have hlast : ∀ x, lastValue? primaries x = (lastBuild S x).map (·.sumOf st Step.runs) := by
    intro x
    rw [← hprim', lastValue?_map, List.filter_filter, lastBuild]
    congr 2
    exact List.filter_congr fun l _ => Bool.and_comm _ _
  have hcopies : ∀ p, p ∈ (List.range st.length).filter (fun p => (stepAt st p).isCopy) ↔
      p < st.length ∧ (stepAt st p).isCopy = true := by
    intro p
    simp
  have hkeep : ∀ p, p ∉ (List.range st.length).filter (fun p => (stepAt st p).isCopy) →
      stepAt (st.map (followStep primaries)) p = stepAt st p := by
    intro p hp
    by_cases hlt : p < st.length
    · have hnc : (stepAt st p).isCopy = false := by simpa [hcopies, hlt] using hp
      rw [stepAt_map_of_lt hlt, followStep_of_none (.inl hnc)]
    · simp [stepAt, hlt]
  refine ⟨⟨?_, fun p hp => by rw [hkeep p hp], fun p hp => by rw [hkeep p hp], fun id => ?_⟩,
    fun p hp hc => ?_⟩
  · rw [List.map_map]
    exact List.map_congr_left fun s _ => followStep_sansCounts primaries s
  · rw [mem_foldl_mark]
    refine or_congr_right ⟨?_, ?_⟩
    · rintro ⟨s, hs, rfl⟩
      obtain ⟨hmem, hsome⟩ := List.mem_filter.1 hs
      obtain ⟨p, hp, rfl⟩ := List.getElem_of_mem hmem
      have hat : stepAt st p = st[p] := by simp [stepAt, hp]
      obtain ⟨hcopy, hch⟩ := (isSome_followRuns primaries _).1 hsome
      refine ⟨p, (hcopies p).2 ⟨hp, hat ▸ hcopy⟩, by rw [hat], ?_⟩
      unfold Changed
      rw [stepAt_map_of_lt hp, hat]
      exact hch
    · rintro ⟨p, hp, rfl, hch⟩
      rw [hcopies] at hp
      have hat : stepAt st p = st[p] := by simp [stepAt, hp.1]
      refine ⟨stepAt st p, List.mem_filter.2 ⟨hat ▸ List.getElem_mem hp.1, ?_⟩, rfl⟩
      unfold Changed at hch
      rw [stepAt_map_of_lt hp.1] at hch
      exact (isSome_followRuns primaries _).2 ⟨hp.2, hch⟩
  · rw [stepAt_map_of_lt hp]
    cases hb : lastBuild S (stepAt st p).recipe with
    | none =>
      rw [followStep_of_none (.inr (by rw [hlast, hb]; rfl))]
      exact ⟨rfl, rfl⟩
    | some b => exact followStep_of_lastValue hc (by rw [hlast, hb]; rfl)

end Finish

section Whole

variable {S : List Step} {B : RecipeBook} {P : List Ident}

/-- The pass over the logical steps reassigns exactly their members and settles each of them. -/
theorem pass_settles (hprod : ((logicalSteps S).map fun l => (l.head S).product).Nodup)
    (horder : ∀ c ∈ logicalSteps S, ∀ l ∈ logicalSteps S, c ≠ l → c.consumes S B l = true →
      c.Precedes S l)
    {st : List Step} {d : DirtySet} {dem : List (Nat × Nat)}
    (h : (logicalSteps S).zipIdx.foldlM (recalculateLogical B P (ownerOf S (logicalSteps S)))
      (S, {}, []) = .ok (st, d, dem)) :
    Reassigned S st ((logicalSteps S).flatMap (·.members)) {} d ∧
      ∀ l ∈ logicalSteps S, l.Settled S B P st := by
  have hinv : PassInvariant S B P (logicalSteps S).length st d dem := by
    refine foldlM_zipIdx_invariant (fun k acc => PassInvariant S B P k acc.1 acc.2.1 acc.2.2) h
      PassInvariant.start ?_
    rintro k hk ⟨st, d, dem⟩ ⟨st', d', dem'⟩ hacc hstep
    exact PassInvariant.step hprod horder hk hacc hstep
  have hR := hinv.reassigned
  have hsettled := hinv.settled
  rw [List.take_length] at hR hsettled
  exact ⟨hR, hsettled⟩

/-- The positions of copy steps, read in steps that agree with `S` but for their counts. -/
theorem mem_copies_iff {st : List Step} (hst : st.map sansCounts = S.map sansCounts) (p : Nat) :
    p ∈ (List.range st.length).filter (fun p => (stepAt st p).isCopy) ↔
      p < S.length ∧ (stepAt S p).isCopy = true := by
  have hlen : st.length = S.length := by simpa using congrArg List.length hst
  have hcopy : (stepAt st p).isCopy = (stepAt S p).isCopy :=
    congrArg (·.isCopy) (sansCounts_stepAt_of_map hst p)
  simp only [List.mem_filter, List.mem_range, hlen, hcopy]

theorem not_mem_members_of_isCopy {p : Nat} (hc : (stepAt S p).isCopy = true) :
    p ∉ (logicalSteps S).flatMap (·.members) := fun hmem => by
  obtain ⟨l, hl, hpl⟩ := List.mem_flatMap.1 hmem
  rw [(mem_members hl hpl).2] at hc
  cases hc

/-- After the pass, recording group totals and following copies: nothing but counts and group
totals has changed, the marks are the identifiers of the steps whose counts changed, a step that
is not a copy keeps what the pass gave it, and copies follow the last build logical step of their
recipe. -/
theorem finish_spec {st₁ st₂ st₃ : List Step} {d₁ d₃ : DirtySet}
    (hR₁ : Reassigned S st₁ ((logicalSteps S).flatMap (·.members)) {} d₁)
    (hheal : healGroups (logicalSteps S) st₁ = .ok st₂)
    (hcopy : followCopies (logicalSteps S) st₂ d₁ = .ok (st₃, d₃)) :
    st₃.map sansCounts = S.map sansCounts ∧
      (∀ id, id ∈ d₃.ids ↔ ∃ p < S.length, (stepAt S p).id = id ∧ Changed S st₃ p) ∧
      (∀ p, (stepAt S p).isCopy = false →
        (stepAt st₃ p).runs = (stepAt st₁ p).runs ∧
          (stepAt st₃ p).quantity = (stepAt st₁ p).quantity) ∧
      ∀ p < S.length, (stepAt S p).isCopy = true →
        match lastBuild S (stepAt S p).recipe with
        | some b => (stepAt st₃ p).runs = b.sumOf st₃ Step.runs ∧
            (stepAt st₃ p).quantity = b.sumOf st₃ Step.runs
        | none => (stepAt st₃ p).runs = (stepAt S p).runs ∧
            (stepAt st₃ p).quantity = (stepAt S p).quantity := by
  have hR₂ := healGroups_keeps_counts hheal d₁
  have hst₂ : st₂.map sansCounts = S.map sansCounts := hR₂.frame.trans hR₁.frame
  obtain ⟨hR₃, hcopies⟩ := followCopies_spec hcopy hst₂
  have hall := (hR₁.trans hR₂ (by simp)).trans hR₃ fun p hp hmem =>
    not_mem_members_of_isCopy ((mem_copies_iff hst₂ p).1 hp).2 (by simpa using hmem)
  have hkeep : ∀ p, (stepAt S p).isCopy = false → (stepAt st₃ p).runs = (stepAt st₁ p).runs ∧
      (stepAt st₃ p).quantity = (stepAt st₁ p).quantity := by
    intro p hp
    have hnot : p ∉ (List.range st₂.length).filter (fun p => (stepAt st₂ p).isCopy) :=
      fun hmem => by
        rw [((mem_copies_iff hst₂ p).1 hmem).2] at hp
        cases hp
    exact ⟨(hR₃.runs p hnot).trans (hR₂.runs p (by simp)),
      (hR₃.quantity p hnot).trans (hR₂.quantity p (by simp))⟩
  refine ⟨hall.frame, hall.marks_iff_changed fun p hp => ?_, hkeep, fun p hp hc => ?_⟩
  · rcases List.mem_append.1 hp with hp | hp
    · obtain ⟨l, hl, hpl⟩ := List.mem_flatMap.1 (by simpa using hp)
      exact (mem_members hl hpl).1
    · exact ((mem_copies_iff hst₂ p).1 hp).1
  · have hat₂ := sansCounts_stepAt_of_map hst₂ p
    have hlen₂ : st₂.length = S.length := hR₂.length_eq.trans hR₁.length_eq
    have hvalue := hcopies p (hlen₂ ▸ hp) (by
      rw [show (stepAt st₂ p).isCopy = (stepAt S p).isCopy from congrArg (·.isCopy) hat₂]
      exact hc)
    rw [show (stepAt st₂ p).recipe = (stepAt S p).recipe from congrArg (·.recipe) hat₂] at hvalue
    cases hb : lastBuild S (stepAt S p).recipe with
    | none =>
      rw [hb] at hvalue
      have hnot := not_mem_members_of_isCopy hc
      exact ⟨by rw [hvalue.1, hR₂.runs p (by simp), hR₁.runs p hnot],
        by rw [hvalue.2, hR₂.quantity p (by simp), hR₁.quantity p hnot]⟩
    | some b =>
      rw [hb] at hvalue
      have hbmem : b ∈ logicalSteps S := List.mem_of_mem_filter (List.mem_of_getLast? hb)
      have hsum : b.sumOf st₃ Step.runs = b.sumOf st₂ Step.runs := sumAt_congr fun q hq =>
        (hkeep q (mem_members hbmem hq).2).1.trans (hR₂.runs q (by simp)).symm
      exact ⟨hvalue.1.trans hsum.symm, hvalue.2.trans hsum.symm⟩

end Whole

/-- When every material is the product of at most one logical step and consumers come strictly
before the logical steps they draw on, a recalculation that succeeds settles every logical step
(`Logical.Settled`); a copy step takes the runs of the last build logical step of its recipe as
its runs and quantity, and keeps its counts when there is none; nothing but runs, quantities and
group totals changes; and the steps reported changed are those whose runs or quantity
changed. -/
theorem recalculate_settles {S : List Step} {B : RecipeBook} {P : List Ident} {r : Recalculation}
    (hprod : ((logicalSteps S).map fun l => (l.head S).product).Nodup)
    (horder : ∀ c ∈ logicalSteps S, ∀ l ∈ logicalSteps S, c ≠ l → c.consumes S B l = true →
      c.Precedes S l)
    (h : recalculate S B P = .ok r) :
    (∀ l ∈ logicalSteps S, l.Settled S B P r.steps) ∧
      (∀ p < S.length, (stepAt S p).isCopy = true →
        match lastBuild S (stepAt S p).recipe with
        | some b => (stepAt r.steps p).runs = b.sumOf r.steps Step.runs ∧
            (stepAt r.steps p).quantity = b.sumOf r.steps Step.runs
        | none => (stepAt r.steps p).runs = (stepAt S p).runs ∧
            (stepAt r.steps p).quantity = (stepAt S p).quantity) ∧
      r.steps.map sansCounts = S.map sansCounts ∧
      ∀ id, id ∈ r.changed ↔ ∃ p < S.length, (stepAt S p).id = id ∧ Changed S r.steps p := by
  unfold recalculate at h
  obtain ⟨⟨st₁, d₁, dem⟩, hloop, h⟩ := ok_of_bind h
  obtain ⟨st₂, hheal, h⟩ := ok_of_bind h
  obtain ⟨⟨st₃, d₃⟩, hcopy, h⟩ := ok_of_bind h
  obtain rfl : r = ⟨st₃, d₃.ids⟩ := by
    cases h
    rfl
  obtain ⟨hR₁, hsettled⟩ := pass_settles hprod horder hloop
  obtain ⟨hframe, hchanged, hkeep, hcopies⟩ := finish_spec hR₁ hheal hcopy
  refine ⟨fun l hl => ?_, hcopies, hframe, hchanged⟩
  refine Logical.Settled.congr (hsettled l hl) (fun p hp => hkeep p (mem_members hl hp).2)
    fun c hc p hp => ?_
  exact (hkeep p (mem_members (List.mem_of_mem_filter hc) hp).2).1

/-- Three steps: a build of product `1` with a target of three, whose recipe takes two units of
product `2` a run; a build of product `2`, one level deeper, with five runs and no target; and a
copy of the first recipe. -/
def recalculateSample : List Step :=
  [{ id := .given 1, recipe := 1, product := 1, target := 3 },
   { id := .given 2, recipe := 2, product := 2, depth := 1, runs := 5, quantity := 5 },
   { id := .given 3, recipe := 1, activity := .duplicate, product := 1 }]

/-- The recipes of `recalculateSample`. -/
def recalculateSampleBook : RecipeBook :=
  { recipes := [⟨1, .build, [⟨2, 2⟩], [⟨1, 1⟩], 60⟩, ⟨2, .build, [], [⟨2, 1⟩], 60⟩] }

/-- On the sample, each product has one maker, the build of product `1` consumes product `2` and
comes first, and the pass settles both logical steps and reports the steps it changed. -/
theorem recalculate_settles_sample :
    ((logicalSteps recalculateSample).map fun l => (l.head recalculateSample).product).Nodup ∧
      (∀ c ∈ logicalSteps recalculateSample, ∀ l ∈ logicalSteps recalculateSample, c ≠ l →
        c.consumes recalculateSample recalculateSampleBook l = true →
          c.Precedes recalculateSample l) ∧
      ∃ r, recalculate recalculateSample recalculateSampleBook [] = .ok r ∧
        (∀ l ∈ logicalSteps recalculateSample,
          l.Settled recalculateSample recalculateSampleBook [] r.steps) ∧
        ∀ id, id ∈ r.changed ↔ ∃ p < recalculateSample.length,
          (stepAt recalculateSample p).id = id ∧ Changed recalculateSample r.steps p := by
  have hprod : ((logicalSteps recalculateSample).map fun l =>
      (l.head recalculateSample).product).Nodup := by decide +kernel
  have horder : ∀ c ∈ logicalSteps recalculateSample, ∀ l ∈ logicalSteps recalculateSample,
      c ≠ l → c.consumes recalculateSample recalculateSampleBook l = true →
        c.Precedes recalculateSample l := by decide +kernel
  obtain ⟨r, hr, -⟩ := exists_ok_of_check (x := recalculate recalculateSample recalculateSampleBook [])
    (p := fun r => r.changed.length == 3) (by decide +kernel)
  obtain ⟨hsettled, -, -, hchanged⟩ := recalculate_settles hprod horder hr
  exact ⟨hprod, horder, r, hr, hsettled, hchanged⟩

/-- A split group of two members with `2^63` runs each, of a recipe missing from the book. -/
def overflowSample : List Step :=
  [{ id := .given 1, recipe := 1, product := 1, runs := 9223372036854775808,
     split := some ⟨.given 9, 0, 0⟩ },
   { id := .given 2, recipe := 1, product := 1, runs := 9223372036854775808,
     split := some ⟨.given 9, 1, 0⟩ }]

/-- The sample meets the conditions on products and order, yet recalculating it fails: the
group's total runs overflow a count. -/
theorem recalculate_overflows_group_total :
    ((logicalSteps overflowSample).map fun l => (l.head overflowSample).product).Nodup ∧
      (∀ c ∈ logicalSteps overflowSample, ∀ l ∈ logicalSteps overflowSample, c ≠ l →
        c.consumes overflowSample {} l = true → c.Precedes overflowSample l) ∧
      recalculate overflowSample {} [] = .error .countAddOverflow := by
  refine ⟨by decide +kernel, by decide +kernel, ?_⟩
  decide +kernel

end Step

end Fabrication
