import Fabrication.Proofs.Step.Split

/-!
# Splitting long steps under a job duration ceiling

Under a ceiling of `c` seconds a job, `splitExcept` walks the steps and handles each one by
itself and in its place (`splitExcept_replaces`). It keeps a step, or replaces it by a split
group when the step is no copy, not yet split, not kept, and its runs of `d > 0` seconds each
last longer than `c` together (`Replaced`).

The group's runs are `splitRuns runs (max (c / d) 1)`: as many jobs as jobs of that many runs
are needed, each with at least one run and at most a job's worth, shared evenly or filling every
job but the last (`splitRuns_bounds`, `splitRuns_even`, `splitRuns_fill`). Every member but the
last makes what its runs make out of what is left of the step's quantity, and the last makes
the rest (`membersFrom`), so the members make the step's quantity; when the step's runs are the
runs its quantity needs, so are every member's (`runsFor_membersFrom`).

A member's units `runs * out` are not held at the largest count: splitting a step succeeds
exactly when that product is a count for every member but the last (`splitStep_run`), which
it is when the step's runs are the runs its quantity needs (`splitRuns_fits`). Otherwise the
split breaks down (`splitExcept_overflows_unfed`).
-/

namespace Fabrication

namespace Planning

theorem run_bind_of_ok {α β : Type} {x : Planning α} {f : α → Planning β} {σ ρ : IdSupply}
    {a : α} (h : x.run σ = .ok (a, ρ)) : (x >>= f).run σ = (f a).run ρ := by
  rw [StateT.run_bind, h]
  rfl

theorem run_ofFault_mul? (a b : Nat) (ρ : IdSupply) :
    (ofFault (Count.mul? a b)).run ρ =
      if a * b < Count.bound then .ok (a * b, ρ) else .error (.fault .countMulOverflow) := by
  unfold ofFault ofOutcome Outcome.ofFault Count.mul? Count.check
  split <;> rfl

/-- A `mapM` whose every call succeeds, from any supply, succeeds. -/
theorem mapM_ok {α β : Type} {f : α → Planning β} {l : List α}
    (h : ∀ x ∈ l, ∀ ρ, ∃ y ρ', (f x).run ρ = .ok (y, ρ')) (σ : IdSupply) :
    ∃ ys τ, (l.mapM f).run σ = .ok (ys, τ) := by
  induction l generalizing σ with
  | nil => exact ⟨[], σ, rfl⟩
  | cons x l ih =>
    obtain ⟨y, ρ, hy⟩ := h x List.mem_cons_self σ
    obtain ⟨ys, τ, hys⟩ := ih (fun x' hx' => h x' (List.mem_cons_of_mem _ hx')) ρ
    refine ⟨y :: ys, τ, ?_⟩
    rw [List.mapM_cons, run_bind_of_ok hy, run_bind_of_ok hys]
    rfl

end Planning

section SplitRuns

variable {runs max : Nat}

/-- With at least one run, there are as many jobs as jobs of `max` runs are needed. -/
theorem divCeil_eq_one (h : 0 < runs) (hle : runs ≤ Nat.max max 1) :
    Count.divCeil runs (Nat.max max 1) = 1 := by
  have hm : 0 < Nat.max max 1 := Nat.lt_of_lt_of_le Nat.zero_lt_one (Nat.le_max_right _ _)
  have hle1 : Count.divCeil runs (Nat.max max 1) ≤ 1 :=
    (divCeil_le_iff (q := runs) (n := 1) hm).2 (by omega)
  have hpos : 0 < Count.divCeil runs (Nat.max max 1) := Nat.pos_of_ne_zero fun h0 => by
    have := (divCeil_le_iff (q := runs) (n := 0) hm).1 (by omega)
    omega
  omega

theorem length_splitRuns (h : 0 < runs) (strategy : SplitStrategy) :
    (splitRuns runs max strategy).length = Count.divCeil runs (Nat.max max 1) := by
  unfold splitRuns
  dsimp only
  split
  · rename_i hle
    rw [divCeil_eq_one h hle, List.length_singleton]
  · cases strategy <;> simp

/-- The jobs of at most `m` runs that `runs` runs need: at least one, at most one a run, enough
for all runs, and one fewer is not enough. -/
theorem divCeil_jobs {m : Nat} (hm : 0 < m) (h : 0 < runs) :
    0 < Count.divCeil runs m ∧ Count.divCeil runs m ≤ runs ∧ runs ≤ m * Count.divCeil runs m ∧
      m * (Count.divCeil runs m - 1) < runs := by
  have henough : runs ≤ m * Count.divCeil runs m := (divCeil_le_iff hm).1 (Nat.le_refl _)
  have hpos : 0 < Count.divCeil runs m := Nat.pos_of_ne_zero fun h0 => by
    rw [h0, Nat.mul_zero] at henough
    omega
  refine ⟨hpos, (divCeil_le_iff hm).2 (Nat.le_mul_of_pos_left runs hm), henough, ?_⟩
  refine Nat.lt_of_not_le fun hle => ?_
  have := (divCeil_le_iff hm).2 hle
  omega

theorem splitRuns_bounds (h : 0 < runs) (strategy : SplitStrategy) :
    ∀ p ∈ splitRuns runs max strategy, 0 < p ∧ p ≤ Nat.max max 1 := by
  have hm : 0 < Nat.max max 1 := Nat.lt_of_lt_of_le Nat.zero_lt_one (Nat.le_max_right _ _)
  unfold splitRuns
  dsimp only
  split
  · intro p hp
    rw [List.mem_singleton.1 hp]
    omega
  · obtain ⟨hjobs, hfew, henough, hshort⟩ := divCeil_jobs hm h
    set jobs := Count.divCeil runs (Nat.max max 1)
    cases strategy with
    | even =>
      -- the runs are `jobs` shares of `runs / jobs`, the first `runs % jobs` one more
      have hdm := Nat.div_add_mod runs jobs
      have hmod := Nat.mod_lt runs hjobs
      have hbase : 0 < runs / jobs := Nat.div_pos hfew hjobs
      have hle : runs / jobs ≤ Nat.max max 1 :=
        Nat.div_le_of_le_mul (by rw [Nat.mul_comm]; exact henough)
      have hlt : 0 < runs % jobs → runs / jobs < Nat.max max 1 := fun hr => by
        refine Nat.lt_of_not_le fun hge => ?_
        have := Nat.mul_le_mul_left jobs hge
        rw [Nat.mul_comm jobs] at this
        omega
      intro p hp
      obtain ⟨i, hi, rfl⟩ := List.mem_map.1 hp
      have hi := List.mem_range.1 hi
      split
      · have := hlt (by omega)
        omega
      · omega
    | fill =>
      intro p hp
      obtain ⟨i, -, rfl⟩ := List.mem_map.1 hp
      split
      · omega
      · have : Nat.max max 1 * jobs = Nat.max max 1 * (jobs - 1) + Nat.max max 1 := by
          rw [← Nat.mul_add_one, Nat.sub_add_cancel hjobs]
        omega

/-- Even shares do not grow from one job to the next and differ by at most one run. -/
theorem splitRuns_even (runs max : Nat) :
    (splitRuns runs max .even).Pairwise (· ≥ ·) ∧
      ∀ p ∈ splitRuns runs max .even, ∀ p' ∈ splitRuns runs max .even, p ≤ p' + 1 := by
  unfold splitRuns
  dsimp only
  split
  · simp
  · refine ⟨List.pairwise_map.2 (List.pairwise_lt_range.imp fun {i j} hij => ?_), ?_⟩
    · split <;> split <;> omega
    · intro p hp p' hp'
      obtain ⟨i, -, rfl⟩ := List.mem_map.1 hp
      obtain ⟨j, -, rfl⟩ := List.mem_map.1 hp'
      split <;> split <;> omega

/-- Filled jobs but the last take the job size. -/
theorem splitRuns_fill (runs max : Nat) :
    ∀ p ∈ (splitRuns runs max .fill).dropLast, p = Nat.max max 1 := by
  unfold splitRuns
  dsimp only
  split
  · simp
  · rename_i hmore
    have hm : 0 < Nat.max max 1 := Nat.lt_of_lt_of_le Nat.zero_lt_one (Nat.le_max_right _ _)
    obtain ⟨k, hk⟩ : ∃ k, Count.divCeil runs (Nat.max max 1) = k + 1 :=
      ⟨_, (Nat.succ_pred_eq_of_pos (divCeil_jobs hm (by omega)).1).symm⟩
    rw [hk, List.range_succ, List.map_append, List.map_singleton, List.dropLast_concat]
    intro p hp
    obtain ⟨i, hi, rfl⟩ := List.mem_map.1 hp
    rw [if_pos (by simpa using hi)]

/-- When `runs` are the runs `q` units need at `out` units a run, every job but the last makes
fewer units than `q`, so its units are a count. -/
theorem splitRuns_fits {q out : Nat} (hout : 0 < out) (hruns : runs = runsFor q out)
    (hq : q < Count.bound) (h : 0 < runs) (strategy : SplitStrategy) :
    ∀ p ∈ (splitRuns runs max strategy).dropLast, p * out < Count.bound := by
  intro p hp
  have hne := Step.splitRuns_ne_nil runs max strategy
  have hlast := (splitRuns_bounds h strategy _ (List.getLast_mem hne)).1
  have hsum : (splitRuns runs max strategy).dropLast.sum + (splitRuns runs max strategy).getLast hne
      = runs := by
    have hsplit := congrArg List.sum (List.dropLast_concat_getLast hne)
    rwa [List.sum_append, List.sum_singleton, sum_splitRuns] at hsplit
  have hp := List.le_sum_of_mem hp
  have hshort : out * (runs - 1) < q := by
    refine Nat.lt_of_not_le fun hle => ?_
    have := (runsFor_le_iff hout).2 hle
    omega
  calc p * out ≤ (runs - 1) * out := Nat.mul_le_mul_right out (by omega)
    _ = out * (runs - 1) := Nat.mul_comm _ _
    _ < q := hshort
    _ < Count.bound := hq

example : splitRuns 50 24 .even = [17, 17, 16] := by decide
example : splitRuns 50 24 .fill = [24, 24, 2] := by decide

end SplitRuns

namespace Step

/-- Member `i` of the group `g` split from `st`, with identifier `id`, `runs` runs and
`quantity` units; only the first member keeps the step's target. -/
def memberOf (st : Step) (g id : Ident) (i runs quantity : Nat) : Step :=
  { st with id, runs, quantity, target := if i = 0 then st.target else 0,
            split := some ⟨g, i, st.runs⟩ }

@[simp] theorem memberOf_id (st : Step) (g id : Ident) (i runs quantity : Nat) :
    (memberOf st g id i runs quantity).id = id := rfl

@[simp] theorem memberOf_runs (st : Step) (g id : Ident) (i runs quantity : Nat) :
    (memberOf st g id i runs quantity).runs = runs := rfl

@[simp] theorem memberOf_quantity (st : Step) (g id : Ident) (i runs quantity : Nat) :
    (memberOf st g id i runs quantity).quantity = quantity := rfl

/-- The members `k, k + 1, …` of the group `fresh a` split from `st`, taking the runs `ps` and
`q` units: each member but the last makes the units its runs make, up to what is left, and
the last makes all that is left. -/
def membersFrom (st : Step) (a : Nat) : Nat → Nat → List Nat → List Step
  | _, _, [] => []
  | k, q, [p] => [memberOf st (.fresh a) (memberId st a k) k p q]
  | k, q, p :: ps => memberOf st (.fresh a) (memberId st a k) k p (Nat.min (p * st.out) q) ::
      membersFrom st a (k + 1) (q - Nat.min (p * st.out) q) ps

theorem membersFrom_singleton (st : Step) (a k q p : Nat) :
    membersFrom st a k q [p] = [memberOf st (.fresh a) (memberId st a k) k p q] := rfl

theorem membersFrom_cons_cons (st : Step) (a k q p p' : Nat) (ps : List Nat) :
    membersFrom st a k q (p :: p' :: ps) =
      memberOf st (.fresh a) (memberId st a k) k p (Nat.min (p * st.out) q) ::
        membersFrom st a (k + 1) (q - Nat.min (p * st.out) q) (p' :: ps) := rfl

/-- The group `fresh a` split from `st`, member `i` taking part `i` of the runs `parts`. -/
def groupOf (st : Step) (a : Nat) (parts : List Nat) : List Step :=
  membersFrom st a 0 st.quantity parts

section Members

variable {st : Step} {a : Nat}

theorem length_membersFrom : ∀ (k q : Nat) (ps : List Nat),
    (membersFrom st a k q ps).length = ps.length
  | _, _, [] => rfl
  | _, _, [_] => rfl
  | k, q, p :: p' :: ps => by
    simp only [membersFrom_cons_cons, List.length_cons, length_membersFrom]

/-- Member `k + i` takes part `i` of the runs and has the identifier and index of its place;
the first member of the group keeps the step's target. -/
theorem forall₂_membersFrom : ∀ (k q : Nat) (ps : List Nat),
    List.Forall₂ (fun x m => IsMember st a x m ∧ m.target = if x.2 = 0 then st.target else 0)
      (ps.zipIdx k) (membersFrom st a k q ps)
  | _, _, [] => .nil
  | _, _, [_] => .cons ⟨rfl, rfl⟩ .nil
  | k, q, p :: p' :: ps => by
    rw [membersFrom_cons_cons, List.zipIdx_cons]
    exact .cons ⟨rfl, rfl⟩ (forall₂_membersFrom (k + 1) _ (p' :: ps))

/-- The members make all the units: the last one takes what the others leave. -/
theorem sum_quantity_membersFrom : ∀ (k q : Nat) (ps : List Nat), ps ≠ [] →
    ((membersFrom st a k q ps).map (·.quantity)).sum = q
  | _, _, [], h => absurd rfl h
  | _, _, [_], _ => by simp [membersFrom]
  | k, q, p :: p' :: ps, _ => by
    rw [membersFrom_cons_cons, List.map_cons, List.sum_cons, memberOf_quantity,
      sum_quantity_membersFrom (k + 1) _ (p' :: ps) (List.cons_ne_nil _ _)]
    simp only [Nat.min_eq_min]
    omega

/-- When the runs handed out are the runs the units need, every member's runs are the runs its
own units need. -/
theorem runsFor_membersFrom (hout : 0 < st.out) : ∀ (k q : Nat) (ps : List Nat),
    ps.sum = runsFor q st.out → ∀ m ∈ membersFrom st a k q ps, m.runs = runsFor m.quantity st.out
  | _, _, [], _, m, hm => by cases hm
  | _, q, [p], hsum, m, hm => by
    rw [membersFrom_singleton, List.mem_singleton] at hm
    subst hm
    simpa using hsum
  | k, q, p :: p' :: ps, hsum, m, hm => by
    have hp : p ≤ runsFor q st.out := by
      rw [← hsum, List.sum_cons]
      omega
    rw [membersFrom_cons_cons, List.mem_cons] at hm
    rcases hm with rfl | hm
    · have := runsFor_share (Q := q) (R := 0) hout (by omega : 0 + p ≤ runsFor q st.out)
      simpa using this.symm
    · refine runsFor_membersFrom hout (k + 1) _ (p' :: ps) ?_ m hm
      rw [Nat.mul_comm p st.out, runsFor_rest hout hp]
      rw [List.sum_cons] at hsum
      omega

theorem map_runs_membersFrom : ∀ (k q : Nat) (ps : List Nat),
    (membersFrom st a k q ps).map Step.runs = ps
  | _, _, [] => rfl
  | _, _, [_] => rfl
  | k, q, p :: p' :: ps => by
    rw [membersFrom_cons_cons, List.map_cons, map_runs_membersFrom, memberOf_runs]


end Members

theorem supply_after_member {σ : IdSupply} {a k : Nat} (hσ : σ.next = a + Nat.max k 1) :
    (if k = 0 then σ else (⟨σ.next + 1⟩ : IdSupply)) = ⟨a + Nat.max (k + 1) 1⟩ := by
  obtain ⟨n⟩ := σ
  simp only [Nat.max_eq_max] at hσ ⊢
  split <;> simp only [IdSupply.mk.injEq] <;> omega

/-- The identifier member `k` gets: the step's own for the first, the next fresh one after. -/
theorem id_of_member {st : Step} {σ : IdSupply} {a k : Nat} (hσ : σ.next = a + Nat.max k 1) :
    (if k = 0 then st.id else Ident.fresh σ.next) = memberId st a k := by
  unfold memberId
  split
  · rfl
  · rename_i h0
    rw [hσ, Nat.max_eq_max, Nat.max_eq_left (Nat.one_le_iff_ne_zero.2 h0)]

/-- The fold that makes the members of a split group, `F` making one member: the step's own
identifier at index zero and the next fresh one after it, and the units its runs make out of
what is left (all that is left at index `last`), unless those units are no count. Started at
member `k`, with `q` units left, it makes the members `membersFrom st a k q` or breaks down. -/
theorem foldlM_membersFrom (st : Step) (a last : Nat)
    {F : List Step × Nat → Nat × Nat → Planning (List Step × Nat)}
    (hF : ∀ done assigned p i ρ, (F (done, assigned) (p, i)).run ρ =
      if i = last ∨ p * st.out < Count.bound then
        .ok ((memberOf st (.fresh a) (if i = 0 then st.id else .fresh ρ.next) i p
            (if i = last then st.quantity - assigned
              else Nat.min (p * st.out) (st.quantity - assigned)) :: done,
          assigned + (if i = last then st.quantity - assigned
              else Nat.min (p * st.out) (st.quantity - assigned))),
          if i = 0 then ρ else ⟨ρ.next + 1⟩)
      else .error (.fault .countMulOverflow)) :
    ∀ (ps : List Nat) (k q : Nat) (done : List Step) (assigned : Nat) (σ : IdSupply),
      k + ps.length = last + 1 → σ.next = a + Nat.max k 1 → q = st.quantity - assigned →
      ((ps.zipIdx k).foldlM F (done, assigned)).run σ =
        if ∀ p ∈ ps.dropLast, p * st.out < Count.bound then
          .ok (((membersFrom st a k q ps).reverse ++ done,
            assigned + ((membersFrom st a k q ps).map (·.quantity)).sum),
            ⟨a + Nat.max (k + ps.length) 1⟩)
        else .error (.fault .countMulOverflow)
  | [], k, q, done, assigned, σ, _, hσ, _ => by
    simp [membersFrom, ← hσ]
    rfl
  | [p], k, q, done, assigned, σ, hk, hσ, hq => by
    have hlast : k = last := by simpa using hk
    subst hlast hq
    rw [List.zipIdx_cons, List.foldlM_cons, StateT.run_bind, hF, if_pos (.inl rfl)]
    simp only [if_true, List.zipIdx_nil, List.foldlM_nil]
    rw [supply_after_member hσ, id_of_member hσ]
    simp [membersFrom]
  | p :: p' :: ps, k, q, done, assigned, σ, hk, hσ, hq => by
    subst hq
    have hlast : k ≠ last := by simp only [List.length_cons] at hk; omega
    rw [List.zipIdx_cons, List.foldlM_cons, StateT.run_bind, hF]
    simp only [if_neg hlast]
    by_cases hfit : p * st.out < Count.bound
    · rw [if_pos (.inr hfit)]
      simp only [bind, Except.bind]
      rw [supply_after_member hσ, id_of_member hσ,
        foldlM_membersFrom st a last hF (p' :: ps) (k + 1)
          (st.quantity - assigned - Nat.min (p * st.out) (st.quantity - assigned)) _ _ _
          (by simp only [List.length_cons] at hk ⊢; omega) rfl (Nat.sub_sub _ _ _)]
      have hend : k + 1 + (ps.length + 1) = k + (ps.length + 1 + 1) := by omega
      simp [List.dropLast_cons_cons, hfit, membersFrom, hend, Nat.add_assoc]
    · rw [if_neg (by simp [hlast, hfit]), if_neg (by simp [hfit])]
      rfl

theorem splitStep_run (st : Step) {parts : List Nat} (hparts : parts ≠ []) (σ : IdSupply) :
    (Scheduler.splitStep st parts).run σ =
      if ∀ p ∈ parts.dropLast, p * st.out < Count.bound then
        .ok (groupOf st σ.next parts, ⟨σ.next + parts.length⟩)
      else .error (.fault .countMulOverflow) := by
  have hlen : 0 < parts.length := List.length_pos_iff.2 hparts
  unfold Scheduler.splitStep
  rw [Planning.run_bind_of_ok (Planning.run_mint σ)]
  dsimp only
  rw [StateT.run_bind, foldlM_membersFrom st σ.next (parts.length - 1) ?_ parts 0 st.quantity [] 0
    ⟨σ.next + 1⟩ (by omega) (by simp) (by simp)]
  · split
    · simp [groupOf, Nat.max_eq_left hlen]
    · rfl
  · intro done assigned p i ρ
    generalize parts.length - 1 = last
    dsimp only
    by_cases hl : i = last
    · subst hl
      by_cases h0 : i = 0
      · subst h0
        simp [memberOf]
        rfl
      · simp [memberOf, h0, Planning.run_mint]
    · by_cases h0 : i = 0
      · subst h0
        simp [memberOf, hl, Planning.run_ofFault_mul?]
        split <;> rfl
      · simp [memberOf, h0, hl, Planning.run_mint, Planning.run_ofFault_mul?]
        split <;> rfl

/-- What a step that is split must be: no copy, not yet split, not kept, with runs of `d > 0`
seconds that together last longer than the ceiling. -/
theorem splits_conditions {ceiling d : Nat} {keep : List Ident} {st : Step}
    (h : Scheduler.splits ceiling keep st = some d) :
    st.duration = some d ∧ st.isCopy = false ∧ st.split = none ∧ st.id ∉ keep ∧ 0 < d ∧
      ceiling < d * st.runs := by
  unfold Scheduler.splits at h
  split at h
  · rename_i d' hdur
    split at h
    · rename_i hcond
      cases h
      simp only [Bool.and_eq_true, Bool.not_eq_eq_eq_not, Bool.not_true, decide_eq_true_eq] at hcond
      obtain ⟨⟨⟨⟨hcopy, hsplit⟩, hkeep⟩, hpos⟩, hlong⟩ := hcond
      refine ⟨hdur, hcopy, by simpa [isSplit] using hsplit, by simpa using hkeep, hpos, ?_⟩
      unfold Count.satMul at hlong
      simp only [Nat.min_eq_min] at hlong
      omega
    · cases h
  · cases h

/-- The split group that replaces a step whose runs last `d` seconds each, under a ceiling of
`ceiling` seconds, its group and new identifiers drawn from the supply at `a`. -/
structure SplitGroup (ceiling : Nat) (strategy : SplitStrategy) (st : Step) (d a : Nat)
    (ys : List Step) : Prop where
  /-- As many members as jobs of `max 1 (ceiling / d)` runs the step's runs need. -/
  count : ys.length = Count.divCeil st.runs (Nat.max (ceiling / d) 1)
  /-- Member `i` takes part `i` of the shared runs, has index `i` in the group `fresh a`, which
  records the step's runs, and the identifier `memberId st a i`; the first member keeps the
  step's target and the others have none. All else is the step's. -/
  members : List.Forall₂ (fun x m => IsMember st a x m ∧ m.target = if x.2 = 0 then st.target else 0)
    (splitRuns st.runs (Nat.max (ceiling / d) 1) strategy).zipIdx ys
  /-- Every member runs at least once and at most a job's worth. -/
  runs_within : ∀ m ∈ ys, 0 < m.runs ∧ m.runs ≤ Nat.max (ceiling / d) 1
  runs_sum : (ys.map Step.runs).sum = st.runs
  /-- Even shares never grow along the group and differ by at most one run. -/
  even : strategy = .even →
    (ys.map Step.runs).Pairwise (· ≥ ·) ∧ ∀ m ∈ ys, ∀ m' ∈ ys, m.runs ≤ m'.runs + 1
  /-- Filled jobs but the last take a whole job. -/
  fill : strategy = .fill → ∀ m ∈ ys.dropLast, m.runs = Nat.max (ceiling / d) 1
  /-- A member's runs fit the ceiling when one run does. -/
  fits : d ≤ ceiling → ∀ m ∈ ys, d * m.runs ≤ ceiling
  quantity_sum : (ys.map Step.quantity).sum = st.quantity
  /-- A step with the runs its units need hands every member the runs its units need. -/
  needed : 0 < st.out → st.runs = runsFor st.quantity st.out →
    ∀ m ∈ ys, m.runs = runsFor m.quantity st.out

/-- What splitting does to one step, the supply standing at `a` before and at `b` after: the step
is kept when it is not to be split, and is otherwise replaced by the split group drawn from `a`. -/
def Replaced (ceiling : Nat) (keep : List Ident) (strategy : SplitStrategy) (st : Step)
    (a b : Nat) (ys : List Step) : Prop :=
  (Scheduler.splits ceiling keep st = none ∧ ys = [st] ∧ b = a) ∨
    ∃ d, st.duration = some d ∧ st.isCopy = false ∧ st.split = none ∧ st.id ∉ keep ∧ 0 < d ∧
      ceiling < d * st.runs ∧ b = a + ys.length ∧ SplitGroup ceiling strategy st d a ys

theorem splitGroup_groupOf {ceiling d : Nat} {st : Step} (a : Nat) (strategy : SplitStrategy)
    (hd : 0 < d) (hlong : ceiling < d * st.runs) :
    SplitGroup ceiling strategy st d a
      (groupOf st a (splitRuns st.runs (Nat.max (ceiling / d) 1) strategy)) := by
  set parts := splitRuns st.runs (Nat.max (ceiling / d) 1) strategy with hparts
  have hruns : 0 < st.runs := Nat.pos_of_ne_zero fun h0 => by
    rw [h0, Nat.mul_zero] at hlong
    omega
  have hM : Nat.max (Nat.max (ceiling / d) 1) 1 = Nat.max (ceiling / d) 1 :=
    Nat.max_eq_left (Nat.le_max_right _ _)
  have hmap : (groupOf st a parts).map Step.runs = parts := map_runs_membersFrom 0 _ parts
  have hmem : ∀ m ∈ groupOf st a parts, m.runs ∈ parts := fun m hm =>
    hmap ▸ List.mem_map_of_mem hm
  have hbounds : ∀ m ∈ groupOf st a parts, 0 < m.runs ∧ m.runs ≤ Nat.max (ceiling / d) 1 := by
    intro m hm
    have hb := splitRuns_bounds hruns strategy _ (hmem m hm)
    rwa [hM] at hb
  refine ⟨?_, forall₂_membersFrom 0 _ parts, hbounds, ?_, fun hs => ?_, fun hs m hm => ?_,
    fun hle m hm => ?_, sum_quantity_membersFrom 0 _ parts (Step.splitRuns_ne_nil _ _ _),
    fun hout hneed => runsFor_membersFrom hout 0 _ parts (by rw [sum_splitRuns, hneed])⟩
  · rw [groupOf, length_membersFrom, length_splitRuns hruns, hM]
  · rw [hmap, sum_splitRuns]
  · subst hs
    obtain ⟨hpair, hclose⟩ := splitRuns_even st.runs (Nat.max (ceiling / d) 1)
    rw [hmap]
    exact ⟨hpair, fun m hm m' hm' => hclose _ (hmem m hm) _ (hmem m' hm')⟩
  · subst hs
    have hfill := splitRuns_fill st.runs (Nat.max (ceiling / d) 1) m.runs (by
      rw [← hparts, ← hmap, ← List.map_dropLast]
      exact List.mem_map_of_mem hm)
    rwa [hM] at hfill
  · have hjob : Nat.max (ceiling / d) 1 = ceiling / d :=
      Nat.max_eq_left ((Nat.le_div_iff_mul_le hd).2 (by omega))
    have hle' := (hbounds m hm).2
    rw [hjob] at hle'
    calc d * m.runs ≤ d * (ceiling / d) := Nat.mul_le_mul_left d hle'
      _ ≤ ceiling := Nat.mul_div_le ceiling d

/-- One step of the walk: kept, or replaced by the group drawn from the supply. -/
theorem splitCall_replaced {ceiling : Nat} {keep : List Ident} {strategy : SplitStrategy}
    {st : Step} {ys : List Step} {ρ ρ' : IdSupply}
    (h : (match Scheduler.splits ceiling keep st with
      | some d => Scheduler.splitStep st (splitRuns st.runs (Nat.max (ceiling / d) 1) strategy)
      | none => pure [st]).run ρ = .ok (ys, ρ')) :
    ρ.next ≤ ρ'.next ∧ Replaced ceiling keep strategy st ρ.next ρ'.next ys := by
  split at h
  · rename_i d hsplits
    obtain ⟨hdur, hcopy, hsplit, hkeep, hd, hlong⟩ := splits_conditions hsplits
    rw [splitStep_run st (Step.splitRuns_ne_nil _ _ _) ρ] at h
    split at h
    · cases h
      refine ⟨Nat.le_add_right _ _, .inr ⟨d, hdur, hcopy, hsplit, hkeep, hd, hlong, ?_,
        splitGroup_groupOf ρ.next strategy hd hlong⟩⟩
      rw [groupOf, length_membersFrom]
    · cases h
  · rename_i hnone
    cases h
    exact ⟨Nat.le_refl _, .inl ⟨hnone, rfl, rfl⟩⟩

/-- A step that is split only when it has the runs its units need never overflows. -/
theorem splitCall_ok {ceiling : Nat} {keep : List Ident} {strategy : SplitStrategy} {st : Step}
    (hneed : (Scheduler.splits ceiling keep st).isSome →
      0 < st.out ∧ st.runs = runsFor st.quantity st.out ∧ st.quantity < Count.bound)
    (ρ : IdSupply) :
    ∃ ys ρ', (match Scheduler.splits ceiling keep st with
      | some d => Scheduler.splitStep st (splitRuns st.runs (Nat.max (ceiling / d) 1) strategy)
      | none => pure [st]).run ρ = .ok (ys, ρ') := by
  split
  · rename_i d hsplits
    obtain ⟨hout, hneeded, hq⟩ := hneed (by simp [hsplits])
    obtain ⟨-, -, -, -, -, hlong⟩ := splits_conditions hsplits
    have hruns : 0 < st.runs := Nat.pos_of_ne_zero fun h0 => by
      rw [h0, Nat.mul_zero] at hlong
      omega
    rw [splitStep_run st (Step.splitRuns_ne_nil _ _ _) ρ,
      if_pos (splitRuns_fits hout hneeded hq hruns _)]
    exact ⟨_, _, rfl⟩
  · exact ⟨[st], ρ, rfl⟩

theorem splitExcept_replaces {sch : Scheduler} {ceiling : Nat}
    (hc : sch.config.maxJobDuration = some ceiling) (steps : List Step) (keep : List Ident)
    (σ : IdSupply) :
    ((∀ st ∈ steps, (Scheduler.splits ceiling keep st).isSome →
        0 < st.out ∧ st.runs = runsFor st.quantity st.out ∧ st.quantity < Count.bound) →
      ∃ r, (sch.splitExcept steps keep).run σ = .ok r) ∧
    ∀ steps' τ, (sch.splitExcept steps keep).run σ = .ok (steps', τ) →
      ∃ w : List (Planning.Call Step (List Step)), w.map Planning.Call.input = steps ∧
        (w.map Planning.Call.output).flatten = steps' ∧
        (∀ e ∈ w, Replaced ceiling keep sch.config.splitStrategy e.input e.start e.stop e.output ∧
          σ.next ≤ e.start ∧ e.stop ≤ τ.next) ∧
        w.Pairwise (fun e e' => e.stop ≤ e'.start) := by
  unfold Scheduler.splitExcept
  rw [hc]
  dsimp only
  rw [StateT.run_map]
  constructor
  · intro hneed
    obtain ⟨ys, τ, hys⟩ := Planning.mapM_ok
      (fun st hst ρ => @splitCall_ok ceiling keep sch.config.splitStrategy st (hneed st hst) ρ) σ
    exact ⟨(ys.flatten, τ),
      congrArg (Functor.map fun p : List (List Step) × IdSupply => (p.1.flatten, p.2)) hys⟩
  · intro steps' τ h
    obtain ⟨⟨yss, τ'⟩, hm, he⟩ := ok_of_map h
    cases he
    obtain ⟨w, hin, hout, -, hw, hp⟩ := Planning.mapM_calls
      (fun st ys a b => Replaced ceiling keep sch.config.splitStrategy st a b ys) hm
      fun st ys ρ ρ' _ hst => splitCall_replaced hst
    exact ⟨w, hin, by rw [hout], fun e he => ⟨(hw e he).1, (hw e he).2.1, (hw e he).2.2.2⟩, hp⟩

/-- A scheduler that fills jobs of at most 100 seconds. -/
def fillingScheduler : Scheduler := { config := { maxJobDuration := some 100, splitStrategy := .fill } }

/-- Thirteen units at two a run in seven runs of 30 seconds. -/
def longStep : Step := { id := .given 1, recipe := 1, quantity := 13, runs := 7, out := 2, target := 13,
                         duration := some 30 }

theorem splitExcept_replaces_longStep :
    fillingScheduler.config.maxJobDuration = some 100 ∧
      (∀ st ∈ [longStep], (Scheduler.splits 100 [] st).isSome →
        0 < st.out ∧ st.runs = runsFor st.quantity st.out ∧ st.quantity < Count.bound) ∧
      ∃ r, (fillingScheduler.splitExcept [longStep] []).run ⟨0⟩ = .ok r := by
  have hc : fillingScheduler.config.maxJobDuration = some 100 := rfl
  have hneed : ∀ st ∈ [longStep], (Scheduler.splits 100 [] st).isSome →
      0 < st.out ∧ st.runs = runsFor st.quantity st.out ∧ st.quantity < Count.bound := by
    decide
  exact ⟨hc, hneed, (splitExcept_replaces hc [longStep] [] ⟨0⟩).1 hneed⟩

/-- A scheduler with a ceiling of `2 ^ 62` seconds a job. -/
def wideScheduler : Scheduler := { config := { maxJobDuration := some 4611686018427387904 } }

/-- A step of `2 ^ 63` one-second runs of four units each and no quantity: its runs are not the
runs its units need. -/
def unfedStep : Step := { id := .given 1, recipe := 1, runs := 9223372036854775808, out := 4,
                          duration := some 1 }

/-- A step that is to be split but whose runs do not match its units can break the split down:
its first member's units are past the largest count. -/
theorem splitExcept_overflows_unfed :
    Scheduler.splits 4611686018427387904 [] unfedStep = some 1 ∧
      (wideScheduler.splitExcept [unfedStep] []).run ⟨0⟩ = .error (.fault .countMulOverflow) :=
  ⟨rfl, rfl⟩

end Step

end Fabrication
