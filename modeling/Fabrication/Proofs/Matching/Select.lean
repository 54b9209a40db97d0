import Mathlib
import Fabrication.Proofs.Matching.Jobs

/-!
# Which jobs a step takes from its pool

A step takes jobs from its pool, oldest first, in two phases. The greedy walk (`greedy`) takes
every job whose runs fit in the runs still needed, and stops once none are needed; the jobs it
passes over on the way are `passedOver`. If the greedy jobs fall short and some job was passed
over, the first job passed over is taken as well (`selectJobs_eq`).

Every job passed over has more runs than the greedy walk leaves needed
(`runsLeft_lt_of_mem_passedOver`), and a greedy walk that falls short passed over nothing, so it
took the whole pool (`greedy_eq_of_short`). Hence the runs taken fall short only when the whole
pool was taken, and overshoot only through the job taken last, without which they fall short
(`selectJobs_greedy`).

Over jobs of positive runs, a selection reproduces itself: asking for the runs it took takes the
same jobs again, the job it added last now taken in its place in the pool
(`selectJobs_reselect`).
-/

namespace Fabrication

/-- The runs of a list of jobs. -/
def totalRuns (jobs : List Job) : Nat := (jobs.map (·.runs)).sum

@[simp] theorem totalRuns_nil : totalRuns [] = 0 := rfl

@[simp] theorem totalRuns_cons (j : Job) (js : List Job) :
    totalRuns (j :: js) = j.runs + totalRuns js := by
  simp [totalRuns]

@[simp] theorem totalRuns_append (a b : List Job) : totalRuns (a ++ b) = totalRuns a + totalRuns b := by
  simp [totalRuns]

/-- The greedy walk over a pool for `need` runs takes each job whose runs fit in the runs still
needed, and stops once none are needed. -/
def greedy : List Job → Nat → List Job
  | [], _ => []
  | j :: js, need =>
    if need = 0 then []
    else if j.runs ≤ need then j :: greedy js (need - j.runs) else greedy js need

/-- The jobs that the greedy walk passes over before it stops: those that do not fit. -/
def passedOver : List Job → Nat → List Job
  | [], _ => []
  | j :: js, need =>
    if need = 0 then []
    else if j.runs ≤ need then passedOver js (need - j.runs) else j :: passedOver js need

theorem greedy_zero (pool : List Job) : greedy pool 0 = [] := by
  cases pool <;> simp [greedy]

theorem passedOver_zero (pool : List Job) : passedOver pool 0 = [] := by
  cases pool <;> simp [passedOver]

/-- The greedy walk never takes more runs than are needed. -/
theorem totalRuns_greedy_le (pool : List Job) (need : Nat) :
    totalRuns (greedy pool need) ≤ need := by
  induction pool generalizing need with
  | nil => simp [greedy]
  | cons j js ih =>
    unfold greedy
    split_ifs with h0 hfit
    · simp
    · have := ih (need - j.runs)
      simp only [totalRuns_cons]
      omega
    · exact ih need

/-- Each job passed over has more runs than the greedy walk leaves needed. -/
theorem runsLeft_lt_of_mem_passedOver {pool : List Job} {need : Nat} {j : Job}
    (hj : j ∈ passedOver pool need) : need - totalRuns (greedy pool need) < j.runs := by
  induction pool generalizing need with
  | nil => cases hj
  | cons k ks ih =>
    unfold passedOver at hj
    unfold greedy
    split_ifs at hj ⊢ with h0 hfit
    · cases hj
    · have := ih hj
      simp only [totalRuns_cons]
      omega
    · rcases List.mem_cons.1 hj with rfl | hj
      · omega
      · exact ih hj

/-- A greedy walk that falls short of what is needed passed over nothing and took the whole
pool. -/
theorem greedy_eq_of_short {pool : List Job} {need : Nat}
    (hshort : totalRuns (greedy pool need) < need) (hnone : passedOver pool need = []) :
    greedy pool need = pool := by
  induction pool generalizing need with
  | nil => rfl
  | cons j js ih =>
    unfold greedy at hshort ⊢
    unfold passedOver at hnone
    split_ifs at hshort hnone ⊢ with h0 hfit
    · omega
    · simp only [totalRuns_cons] at hshort
      rw [ih (by omega) hnone]

/-- A walk over a pool by a step that keeps taking jobs that fit, passing over jobs that do not,
and does nothing once no runs are needed, ends with the greedy jobs taken, the jobs passed over,
and the runs the greedy jobs leave needed. -/
theorem foldl_walk {F : List Job × List Job × Nat → Job → List Job × List Job × Nat}
    (hF : ∀ t s need j, F (t, s, need) j =
      if need = 0 then (t, s, need)
      else if j.runs ≤ need then (t ++ [j], s, need - j.runs) else (t, s ++ [j], need))
    (pool t s : List Job) (need : Nat) :
    pool.foldl F (t, s, need) =
      (t ++ greedy pool need, s ++ passedOver pool need, need - totalRuns (greedy pool need)) := by
  induction pool generalizing t s need with
  | nil => simp [greedy, passedOver]
  | cons j js ih =>
    rw [List.foldl_cons, hF]
    unfold greedy passedOver
    split_ifs with h0 hfit
    · rw [ih, h0, greedy_zero, passedOver_zero]
    · rw [ih]
      simp [Nat.sub_sub]
    · rw [ih]
      simp

/-- The jobs a step takes: the greedy jobs, and when they fall short, the first job passed
over, if any. -/
theorem selectJobs_eq (pool : List Job) (r : Nat) :
    selectJobs pool r = greedy pool r ++
      if totalRuns (greedy pool r) < r then (passedOver pool r).take 1 else [] := by
  unfold selectJobs
  rw [foldl_walk ?walk]
  case walk =>
    intro t s need j
    simp only [beq_iff_eq]
  dsimp only
  simp only [List.nil_append]
  by_cases hshort : totalRuns (greedy pool r) < r
  · rw [if_pos (by omega), if_pos hshort]
    cases passedOver pool r <;> simp
  · rw [if_neg (by omega), if_neg hshort, List.append_nil]

/-- Nothing is taken when no runs are needed. -/
theorem selectJobs_zero (pool : List Job) : selectJobs pool 0 = [] := by
  simp [selectJobs_eq, greedy_zero]

/-- The jobs taken fall short of the runs needed only when the whole pool was taken. -/
theorem selectJobs_eq_pool_of_short {pool : List Job} {r : Nat}
    (hshort : totalRuns (selectJobs pool r) < r) : selectJobs pool r = pool := by
  rw [selectJobs_eq] at hshort ⊢
  by_cases hG : totalRuns (greedy pool r) < r
  · rw [if_pos hG] at hshort ⊢
    cases hpass : passedOver pool r with
    | nil => simp [greedy_eq_of_short hG hpass]
    | cons j js =>
      have hj := runsLeft_lt_of_mem_passedOver (hpass ▸ List.mem_cons_self : j ∈ passedOver pool r)
      simp only [hpass, List.take_succ_cons, List.take_zero, totalRuns_append, totalRuns_cons,
        totalRuns_nil] at hshort
      omega
  · rw [if_neg hG, List.append_nil] at hshort
    exact absurd hshort hG

/-- The jobs taken overshoot the runs needed only through a last job, the first job passed
over, without which they fall short. -/
theorem selectJobs_overshoot {pool : List Job} {r : Nat}
    (hover : r < totalRuns (selectJobs pool r)) :
    ∃ j, (passedOver pool r).head? = some j ∧ selectJobs pool r = greedy pool r ++ [j] ∧
      totalRuns (selectJobs pool r) - j.runs < r := by
  rw [selectJobs_eq] at hover ⊢
  have hle := totalRuns_greedy_le pool r
  by_cases hG : totalRuns (greedy pool r) < r
  · rw [if_pos hG] at hover ⊢
    cases hpass : passedOver pool r with
    | nil => simp [hpass] at hover; omega
    | cons j js =>
      refine ⟨j, rfl, by simp, ?_⟩
      simp only [List.take_succ_cons, List.take_zero, totalRuns_append, totalRuns_cons,
        totalRuns_nil]
      omega
  · rw [if_neg hG, List.append_nil] at hover
    omega

/-- The jobs a step takes from its pool are jobs of the pool, each taken at most once: the
greedy jobs, then the first job passed over exactly when the greedy jobs fall short and some
job was passed over. No job is taken when no runs are needed; the runs taken fall short only
when the whole pool was taken, and overshoot only when the last job taken is that first job
passed over, without which they fall short. -/
theorem selectJobs_greedy (pool : List Job) (r : Nat) :
    (selectJobs pool r).Subperm pool ∧
    selectJobs pool r = greedy pool r ++
      (if totalRuns (greedy pool r) < r then (passedOver pool r).take 1 else []) ∧
    (r = 0 → selectJobs pool r = []) ∧
    (totalRuns (selectJobs pool r) < r → selectJobs pool r = pool) ∧
    (r < totalRuns (selectJobs pool r) → ∃ j, (passedOver pool r).head? = some j ∧
      selectJobs pool r = greedy pool r ++ [j] ∧ totalRuns (selectJobs pool r) - j.runs < r) := by
  refine ⟨selectJobs_subperm pool r, selectJobs_eq pool r, ?_, selectJobs_eq_pool_of_short,
    selectJobs_overshoot⟩
  rintro rfl
  exact selectJobs_zero pool

/-! ### Taking the runs taken once more -/

theorem totalRuns_perm {a b : List Job} (h : a.Perm b) : totalRuns a = totalRuns b := by
  simp only [totalRuns, (h.map _).sum_eq]

theorem greedy_sublist (pool : List Job) (need : Nat) : (greedy pool need).Sublist pool := by
  induction pool generalizing need with
  | nil => exact List.Sublist.slnil
  | cons j js ih =>
    unfold greedy
    split_ifs
    · exact List.nil_sublist _
    · exact (ih _).cons_cons j
    · exact (ih need).cons j

theorem eq_nil_of_totalRuns_eq_zero {jobs : List Job} (hpos : ∀ j ∈ jobs, 0 < j.runs)
    (h : totalRuns jobs = 0) : jobs = [] := by
  cases jobs with
  | nil => rfl
  | cons j js =>
    have := hpos j List.mem_cons_self
    simp only [totalRuns_cons] at h
    omega

/-- Over jobs of positive runs, the greedy walk for fewer runs, but no fewer than it took, takes
the same jobs. -/
theorem greedy_of_le {pool : List Job} (hpos : ∀ j ∈ pool, 0 < j.runs) {n b : Nat}
    (hlo : totalRuns (greedy pool n) ≤ b) (hhi : b ≤ n) : greedy pool b = greedy pool n := by
  induction pool generalizing n b with
  | nil => rfl
  | cons k ks ih =>
    have hk := hpos k List.mem_cons_self
    have hks : ∀ j ∈ ks, 0 < j.runs := fun j hj => hpos j (List.mem_cons_of_mem _ hj)
    by_cases hn : n = 0
    · subst hn
      rw [Nat.le_zero.1 hhi]
    by_cases hfit : k.runs ≤ n
    · simp only [greedy, hn, hfit, if_false, if_true, totalRuns_cons] at hlo ⊢
      rw [if_neg (by omega), if_pos (by omega),
        ih hks (n := n - k.runs) (b := b - k.runs) (by omega) (by omega)]
    · simp only [greedy, hn, hfit, if_false] at hlo ⊢
      by_cases hb : b = 0
      · rw [hb, eq_nil_of_totalRuns_eq_zero
          (fun j hj => hks j ((greedy_sublist ks n).subset hj)) (by omega)]
        simp
      · rw [if_neg hb, if_neg (by omega), ih hks hlo hhi]

/-- Over jobs of positive runs, the greedy walk for the runs it took and the runs of the first
job it passed over takes that job too. -/
theorem greedy_passedOver_head {pool : List Job} (hpos : ∀ j ∈ pool, 0 < j.runs) {n : Nat}
    {j : Job} (hj : (passedOver pool n).head? = some j) :
    (greedy pool (totalRuns (greedy pool n) + j.runs)).Perm (greedy pool n ++ [j]) := by
  induction pool generalizing n with
  | nil => simp [passedOver] at hj
  | cons k ks ih =>
    have hk := hpos k List.mem_cons_self
    have hks : ∀ j ∈ ks, 0 < j.runs := fun j hj => hpos j (List.mem_cons_of_mem _ hj)
    by_cases hn : n = 0
    · simp [passedOver, hn] at hj
    by_cases hfit : k.runs ≤ n
    · simp only [passedOver, hn, hfit, if_false, if_true] at hj
      have hbudget : k.runs + totalRuns (greedy ks (n - k.runs)) + j.runs - k.runs =
          totalRuns (greedy ks (n - k.runs)) + j.runs := by omega
      simp only [greedy, hn, hfit, if_false, if_true, totalRuns_cons, List.cons_append]
      rw [if_neg (by omega), if_pos (by omega), hbudget]
      exact (ih hks hj).cons k
    · simp only [passedOver, hn, hfit, if_false, List.head?_cons, Option.some.injEq] at hj
      subst hj
      simp only [greedy, hn, hfit, if_false]
      rw [if_neg (by omega), if_pos (by omega), Nat.add_sub_cancel,
        greedy_of_le hks le_rfl (totalRuns_greedy_le ks n)]
      exact (List.perm_append_singleton _ _).symm

/-- Over jobs of positive runs, asking for the runs a selection took takes the same jobs again,
in some order. -/
theorem selectJobs_reselect {pool : List Job} (hpos : ∀ j ∈ pool, 0 < j.runs) (r : Nat) :
    (selectJobs pool (totalRuns (selectJobs pool r))).Perm (selectJobs pool r) := by
  -- the greedy walk for the runs of its own jobs takes them again, and falls short of nothing
  have hgreedy : selectJobs pool (totalRuns (greedy pool r)) = greedy pool r := by
    rw [selectJobs_eq, greedy_of_le hpos le_rfl (totalRuns_greedy_le pool r),
      if_neg (lt_irrefl _), List.append_nil]
  rw [selectJobs_eq pool r]
  by_cases hshort : totalRuns (greedy pool r) < r
  · rw [if_pos hshort]
    cases hpass : passedOver pool r with
    | nil => simp [hgreedy]
    | cons j js =>
      have hperm := greedy_passedOver_head hpos (by rw [hpass]; rfl : (passedOver pool r).head? = some j)
      simp only [List.take_succ_cons, List.take_zero, totalRuns_append, totalRuns_cons,
        totalRuns_nil, Nat.add_zero]
      rw [selectJobs_eq, if_neg (by rw [totalRuns_perm hperm]; simp), List.append_nil]
      exact hperm
  · rw [if_neg hshort, List.append_nil, hgreedy]

/-- A step that needs runs takes nothing only from an empty pool. -/
theorem eq_nil_of_selectJobs_eq_nil {pool : List Job} {r : Nat} (hr : 0 < r)
    (h : selectJobs pool r = []) : pool = [] := by
  cases pool with
  | nil => rfl
  | cons k ks =>
    rw [selectJobs_eq] at h
    have hn : r ≠ 0 := by omega
    by_cases hfit : k.runs ≤ r
    · simp [greedy, hn, hfit] at h
    · simp only [greedy, passedOver, hn, hfit, if_false, List.append_eq_nil_iff] at h
      rw [h.1, totalRuns_nil, if_pos hr] at h
      simp at h

/-- Jobs 1 to 4 of 4, 8, 5 and 3 runs, oldest first. -/
def overshootPool : List Job :=
  [{ id := 1, recipe := 1, runs := 4 }, { id := 2, recipe := 1, runs := 8 },
   { id := 3, recipe := 1, runs := 5 }, { id := 4, recipe := 1, runs := 3 }]

/-- For ten runs the greedy walk takes jobs 1 and 3 and passes over job 2, which then comes last
and overshoots. -/
theorem selectJobs_greedy_overshoot :
    (selectJobs overshootPool 10).map (·.id) = [1, 3, 2] ∧
      10 < totalRuns (selectJobs overshootPool 10) ∧
      ∃ j, (passedOver overshootPool 10).head? = some j ∧
        selectJobs overshootPool 10 = greedy overshootPool 10 ++ [j] ∧
        totalRuns (selectJobs overshootPool 10) - j.runs < 10 := by
  have hover : 10 < totalRuns (selectJobs overshootPool 10) := by decide
  exact ⟨by decide, hover, (selectJobs_greedy overshootPool 10).2.2.2.2 hover⟩

end Fabrication
