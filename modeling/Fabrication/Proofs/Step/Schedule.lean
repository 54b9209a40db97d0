import Fabrication.Proofs.Step.Frame
import Mathlib

/-!
# What scheduling keeps of a plan

Scheduling attaches durations and splits long steps into groups. A group's members make the
step's product with the step's recipe key, efficiencies and bonus, and together make exactly
the step's quantity; the first member stands for the whole group, whose runs it records as
the group's total. So scheduling keeps how much of each material the plan makes
(`schedule_made`), and, for steps not yet split, what each logical step reads
(`schedule_leads`).
-/

namespace Fabrication

namespace Step

/-- Whether a step stands for a logical step: it is no copy, and either unsplit or the first
member of its group. -/
def leads (s : Step) : Bool := !s.isCopy && s.split.all (·.index == 0)

/-- The runs of the logical step a step stands for: its own, or its whole group's. -/
def logicalRuns (s : Step) : Nat := (s.split.map (·.total)).getD s.runs

/-- Units of a material that the steps other than copies make. -/
def made (steps : List Step) (m : Nat) : Nat :=
  ((steps.filter fun s => !s.isCopy && s.product == m).map (·.quantity)).sum

/-- What a logical step reads of the step that stands for it: recipe key, runs, efficiency,
bonus and product. -/
def logicalView (s : Step) : RecipeKey × Nat × Nat × Decimal × Nat :=
  (s.key, s.logicalRuns, s.me, s.matBonus, s.product)

theorem made_append (l l' : List Step) (m : Nat) : made (l ++ l') m = made l m + made l' m := by
  simp [made, List.filter_append]

theorem made_singleton_congr {s s' : Step} (hcopy : s'.isCopy = s.isCopy)
    (hprod : s'.product = s.product) (hq : s'.quantity = s.quantity) (m : Nat) :
    made [s'] m = made [s] m := by
  simp only [made, List.filter_cons, List.filter_nil, hcopy, hprod]
  split <;> simp [hq]

theorem leads_singleton_congr {s s' : Step} (hl : leads s' = leads s)
    (hv : logicalView s' = logicalView s) :
    ([s'].filter leads).map logicalView = ([s].filter leads).map logicalView := by
  simp only [List.filter_cons, List.filter_nil, hl]
  split <;> simp [hv]

theorem sum_made_singleton (l : List Step) (m : Nat) : (l.map (made [·] m)).sum = made l m := by
  induction l with
  | nil => rfl
  | cons s l ih => rw [List.map_cons, List.sum_cons, ih, ← made_append, List.singleton_append]

theorem made_flatten (yss : List (List Step)) (m : Nat) :
    made yss.flatten m = (yss.map (made · m)).sum := by
  induction yss with
  | nil => rfl
  | cons ys yss ih => rw [List.flatten_cons, made_append, ih, List.map_cons, List.sum_cons]

/-- A fold that puts one member in front of those made so far, each within what is left of
`cap`, the one at index `last` taking all that is left. -/
theorem foldlM_split (Q : Nat × Nat → Step → Prop) (cap last : Nat)
    {F : List Step × Nat → Nat × Nat → Planning (List Step × Nat)} {l : List (Nat × Nat)}
    {acc r : List Step × Nat} {σ τ : IdSupply} (h : (l.foldlM F acc).run σ = .ok (r, τ))
    (hcap : acc.2 ≤ cap)
    (hF : ∀ acc x c ρ ρ', x ∈ l → acc.2 ≤ cap → (F acc x).run ρ = .ok (c, ρ') →
      ∃ m, c = (m :: acc.1, acc.2 + m.quantity) ∧ Q x m ∧ acc.2 + m.quantity ≤ cap ∧
        (x.2 = last → acc.2 + m.quantity = cap)) :
    ∃ ms, r.1 = ms.reverse ++ acc.1 ∧ List.Forall₂ Q l ms ∧
      r.2 = acc.2 + (ms.map (·.quantity)).sum ∧
      ∀ x, l.getLast? = some x → x.2 = last → r.2 = cap := by
  induction l generalizing acc σ with
  | nil => cases h; exact ⟨[], by simp, .nil, by simp, by simp⟩
  | cons x l ih =>
    rw [List.foldlM_cons] at h
    obtain ⟨c, ρ, hc, h⟩ := Planning.run_bind_ok h
    obtain ⟨m, rfl, hq, hle, hlast⟩ := hF acc x c σ ρ (by simp) hcap hc
    obtain ⟨ms, hr, hms, hsum, hend⟩ :=
      ih h hle fun acc y d ρ ρ' hy => hF acc y d ρ ρ' (by simp [hy])
    refine ⟨m :: ms, by simp [hr], .cons hq hms, by simp [hsum]; omega, fun y hy hy2 => ?_⟩
    cases l with
    | nil =>
      cases h
      simp only [List.getLast?_singleton, Option.some.injEq] at hy
      subst hy
      exact hlast hy2
    | cons y' l => exact hend y (by simpa using hy) hy2

/-- The members of a split group, in index order: each makes the step's product with its
recipe key, efficiency, bonus and purchase, and records its index and the step's runs; all
together make the step's quantity. -/
theorem splitStep_members {step : Step} {parts : List Nat} {σ τ : IdSupply} {members : List Step}
    (hparts : parts ≠ []) (h : (Scheduler.splitStep step parts).run σ = .ok (members, τ)) :
    List.Forall₂ (fun (x : Nat × Nat) (m : Step) => m.key = step.key ∧
        m.product = step.product ∧ m.me = step.me ∧ m.matBonus = step.matBonus ∧
        m.purchased = step.purchased ∧ ∃ g, m.split = some ⟨g, x.2, step.runs⟩)
      parts.zipIdx members ∧
      (members.map (·.quantity)).sum = step.quantity := by
  unfold Scheduler.splitStep at h
  obtain ⟨group, ρ, -, h⟩ := Planning.run_bind_ok h
  obtain ⟨⟨acc, assigned⟩, ρ', hfold, h⟩ := Planning.run_bind_ok h
  cases h
  obtain ⟨ms, hacc, hms, hsum, hend⟩ := foldlM_split (fun (x : Nat × Nat) (m : Step) =>
      m.key = step.key ∧ m.product = step.product ∧ m.me = step.me ∧
        m.matBonus = step.matBonus ∧ m.purchased = step.purchased ∧
        ∃ g, m.split = some ⟨g, x.2, step.runs⟩) step.quantity (parts.length - 1) hfold
    (Nat.zero_le _) (fun acc x c ρ ρ' _ hcap hx => by
      obtain ⟨members, assigned⟩ := acc
      obtain ⟨runs, index⟩ := x
      dsimp only at hx hcap
      split at hx
      all_goals
        obtain ⟨id, ρ₁, -, hx⟩ := Planning.run_bind_ok hx
        split at hx
        · obtain ⟨q, ρ₂, hq, hx⟩ := Planning.run_bind_ok hx
          cases hq
          cases hx
          exact ⟨_, rfl, ⟨rfl, rfl, rfl, rfl, rfl, group, rfl⟩, by dsimp only; omega,
            fun _ => by dsimp only; omega⟩
        · rename_i hlast
          obtain ⟨made, ρ₃, -, hx⟩ := Planning.run_bind_ok hx
          obtain ⟨q, ρ₂, hq, hx⟩ := Planning.run_bind_ok hx
          cases hq
          cases hx
          refine ⟨_, rfl, ⟨rfl, rfl, rfl, rfl, rfl, group, rfl⟩, ?_,
            fun hl => absurd (by simpa using hl) hlast⟩
          change assigned + min made (step.quantity - assigned) ≤ step.quantity
          omega)
  have hmembers : acc.reverse = ms := by simpa using congrArg List.reverse hacc
  refine ⟨hmembers ▸ hms, ?_⟩
  obtain ⟨x, hx⟩ : ∃ x, parts.getLast? = some x := by
    cases hl : parts.getLast? with
    | none => exact absurd (List.getLast?_eq_none_iff.1 hl) hparts
    | some x => exact ⟨x, rfl⟩
  have hlast : parts.zipIdx.getLast? = some (x, parts.length - 1) := by
    simp [List.getLast?_zipIdx, hx]
  rw [hmembers, ← hend _ hlast rfl, hsum, Nat.zero_add]

/-- What scheduling does to one step: keeps it, or splits it into a group. -/
def SplitOf (st : Step) (ys : List Step) : Prop :=
  ys = [st] ∨ (st.isCopy = false ∧ ∃ parts, parts ≠ [] ∧
    List.Forall₂ (fun (x : Nat × Nat) (m : Step) => m.key = st.key ∧
        m.product = st.product ∧ m.me = st.me ∧ m.matBonus = st.matBonus ∧
        m.purchased = st.purchased ∧ ∃ g, m.split = some ⟨g, x.2, st.runs⟩)
      parts.zipIdx ys ∧ (ys.map (·.quantity)).sum = st.quantity)

theorem isCopy_of_key {s t : Step} (h : s.key = t.key) : s.isCopy = t.isCopy := by
  have : s.activity = t.activity := congrArg RecipeKey.activity h
  simp [isCopy, this]

theorem SplitOf.made_eq {st : Step} {ys : List Step} (h : SplitOf st ys) (m : Nat) :
    Step.made ys m = Step.made [st] m := by
  rcases h with rfl | ⟨hcopy, parts, -, hrel, hsum⟩
  · rfl
  · have hsame : ∀ y ∈ ys, y.isCopy = st.isCopy ∧ y.product = st.product := by
      intro y hy
      obtain ⟨x, -, hk, hp, -⟩ := exists_of_forall₂_right hrel hy
      exact ⟨isCopy_of_key hk, hp⟩
    by_cases hm : st.product = m
    · have hall : ys.filter (fun s => !s.isCopy && s.product == m) = ys :=
        List.filter_eq_self.2 fun y hy => by simp [(hsame y hy).1, (hsame y hy).2, hcopy, hm]
      simp [Step.made, hall, hsum, hcopy, hm]
    · have hnone : ys.filter (fun s => !s.isCopy && s.product == m) = [] :=
        List.filter_eq_nil_iff.2 fun y hy => by simp [(hsame y hy).2, hm]
      simp [Step.made, hnone, hm]

theorem SplitOf.leads_eq {st : Step} {ys : List Step} (h : SplitOf st ys) (hst : st.split = none) :
    (ys.filter Step.leads).map logicalView = ([st].filter Step.leads).map logicalView := by
  rcases h with rfl | ⟨hcopy, parts, hparts, hrel, -⟩
  · rfl
  · obtain ⟨p, ps, rfl⟩ := List.exists_cons_of_ne_nil hparts
    rw [List.zipIdx_cons] at hrel
    obtain ⟨m₀, ms, ⟨hk, hp, hme, hbonus, -, g, hsplit⟩, hrest, rfl⟩ :=
      List.forall₂_cons_left_iff.1 hrel
    have hlater : ms.filter leads = [] := by
      refine List.filter_eq_nil_iff.2 fun y hy => ?_
      obtain ⟨x, hx, -, -, -, -, -, g', hy'⟩ := exists_of_forall₂_right hrest hy
      have : 1 ≤ x.2 := by simpa using List.le_snd_of_mem_zipIdx hx
      simp [Step.leads, hy']
      omega
    have hlead : leads m₀ = true := by simp [leads, isCopy_of_key hk, hcopy, hsplit]
    have hstl : leads st = true := by simp [leads, hcopy, hst]
    rw [List.filter_cons_of_pos hlead, hlater, List.filter_singleton, hstl]
    simp [logicalView, logicalRuns, hk, hp, hme, hbonus, hsplit, hst]

theorem splitExcept_split {sch : Scheduler} {steps steps' : List Step} {keep : List Ident}
    {σ τ : IdSupply} (h : (sch.splitExcept steps keep).run σ = .ok (steps', τ)) :
    ∃ yss, steps' = yss.flatten ∧ List.Forall₂ SplitOf steps yss := by
  unfold Scheduler.splitExcept at h
  split at h
  · cases h
    exact ⟨steps.map ([·]), by rw [← List.flatMap_def, List.flatMap_singleton'], List.forall₂_map_right_iff.2
      (List.forall₂_same.2 fun _ _ => .inl rfl)⟩
  · rw [StateT.run_map] at h
    obtain ⟨⟨yss, τ'⟩, hm, he⟩ := ok_of_map h
    cases he
    refine ⟨yss, rfl, Planning.mapM_forall₂ _ hm fun st ys ρ ρ' _ hst => ?_⟩
    split at hst
    · rename_i d hsplits
      have hcopy : st.isCopy = false := by
        unfold Scheduler.splits at hsplits
        split at hsplits
        · split at hsplits
          · rename_i hcond
            simpa using (Bool.and_eq_true_iff.1 (Bool.and_eq_true_iff.1
              (Bool.and_eq_true_iff.1 (Bool.and_eq_true_iff.1 hcond).1).1).1).1
          · cases hsplits
        · cases hsplits
      exact .inr ⟨hcopy, _, splitRuns_ne_nil _ _ _,
        splitStep_members (splitRuns_ne_nil _ _ _) hst⟩
    · cases hst
      exact .inl rfl

theorem attachDurations_forall₂ {sch : Scheduler} {steps steps' : List Step} {book : RecipeBook}
    (h : sch.attachDurations steps book = .ok steps') :
    List.Forall₂ (fun s s' => s' = { s with duration := s'.duration }) steps steps' := by
  unfold Scheduler.attachDurations at h
  refine mapM_forall₂ _ h fun s s' _ hs => ?_
  split at hs
  · cases hs; rfl
  · obtain ⟨d, -, hs⟩ := ok_of_bind hs
    cases hs; rfl

variable {sch : Scheduler} {steps steps' : List Step} {book : RecipeBook} {σ τ : IdSupply}

/-- Scheduling makes as much of every material as the steps it schedules. -/
theorem schedule_made (h : (sch.schedule steps book).run σ = .ok (steps', τ)) (m : Nat) :
    made steps' m = made steps m := by
  unfold Scheduler.schedule at h
  obtain ⟨timed, ρ, htimed, h⟩ := Planning.run_bind_ok h
  obtain ⟨yss, rfl, hrel⟩ := splitExcept_split h
  have hdur := attachDurations_forall₂ (Planning.run_ofFault_ok htimed).1
  rw [made_flatten]
  -- both sides add up step by step: splitting keeps each step's share, durations change none
  have hsplit : yss.map (made · m) = timed.map fun st => made [st] m :=
    (map_eq_of_forall₂ (hrel.imp fun st ys h => (h.made_eq m).symm)).symm
  have htimedEq : timed.map (fun st => made [st] m) = steps.map fun st => made [st] m := by
    refine (map_eq_of_forall₂ (hdur.imp fun (s s' : Step) (h : s' = { s with duration := s'.duration }) =>
      ?_)).symm
    exact (made_singleton_congr (s := s) (h ▸ rfl) (h ▸ rfl) (h ▸ rfl) m).symm
  rw [hsplit, htimedEq, sum_made_singleton]

theorem SplitOf.source {st : Step} {ys : List Step} (h : SplitOf st ys) :
    ∀ y ∈ ys, y.key = st.key ∧ y.product = st.product := by
  rcases h with rfl | ⟨-, parts, -, hrel, -⟩
  · intro y hy
    rw [List.mem_singleton.1 hy]
    exact ⟨rfl, rfl⟩
  · intro y hy
    obtain ⟨x, -, hk, hp, -⟩ := exists_of_forall₂_right hrel hy
    exact ⟨hk, hp⟩

/-- Every scheduled step comes from a step with its recipe key and product. -/
theorem schedule_source (h : (sch.schedule steps book).run σ = .ok (steps', τ)) :
    ∀ y ∈ steps', ∃ s ∈ steps, y.key = s.key ∧ y.product = s.product := by
  unfold Scheduler.schedule at h
  obtain ⟨timed, ρ, htimed, h⟩ := Planning.run_bind_ok h
  obtain ⟨yss, rfl, hrel⟩ := splitExcept_split h
  have hdur := attachDurations_forall₂ (Planning.run_ofFault_ok htimed).1
  intro y hy
  obtain ⟨ys, hys, hyys⟩ := List.mem_flatten.1 hy
  obtain ⟨t, ht, hsplit⟩ := exists_of_forall₂_right hrel hys
  obtain ⟨s, hs, hts⟩ := exists_of_forall₂_right hdur ht
  obtain ⟨hk, hp⟩ := hsplit.source y hyys
  rw [hts] at hk hp
  exact ⟨s, hs, hk, hp⟩

/-- Lists related step by step with the same logical steps have the same logical steps. -/
theorem leads_of_forall₂ {l l' : List Step} (hr : List.Forall₂ (fun s s' =>
    ([s'].filter leads).map logicalView = ([s].filter leads).map logicalView) l l') :
    (l'.filter leads).map logicalView = (l.filter leads).map logicalView := by
  induction hr with
  | nil => rfl
  | @cons a b l l' hab _ ih =>
    rw [← List.singleton_append, List.filter_append, List.map_append, hab, ih,
      ← List.map_append, ← List.filter_append, List.singleton_append]

theorem leads_flatten {steps : List Step} {yss : List (List Step)}
    (hrel : List.Forall₂ SplitOf steps yss) (hplain : ∀ s ∈ steps, s.split = none) :
    (yss.flatten.filter leads).map logicalView = (steps.filter leads).map logicalView := by
  induction hrel with
  | nil => rfl
  | @cons st ys sts yss hst _ ih =>
    rw [List.flatten_cons, List.filter_append, List.map_append,
      hst.leads_eq (hplain st List.mem_cons_self),
      ih fun s hs => hplain s (List.mem_cons_of_mem _ hs), ← List.map_append,
      ← List.filter_append, List.singleton_append]

/-- Scheduling steps that are not split keeps what every logical step reads. -/
theorem schedule_leads (h : (sch.schedule steps book).run σ = .ok (steps', τ))
    (hplain : ∀ s ∈ steps, s.split = none) :
    (steps'.filter leads).map logicalView = (steps.filter leads).map logicalView := by
  unfold Scheduler.schedule at h
  obtain ⟨timed, ρ, htimed, h⟩ := Planning.run_bind_ok h
  obtain ⟨yss, rfl, hrel⟩ := splitExcept_split h
  have hdur := attachDurations_forall₂ (Planning.run_ofFault_ok htimed).1
  have hplain' : ∀ s ∈ timed, s.split = none := by
    intro s' hs'
    obtain ⟨s, hs, hss⟩ := exists_of_forall₂_right hdur hs'
    rw [hss]
    exact hplain s hs
  rw [leads_flatten hrel hplain']
  exact leads_of_forall₂ (hdur.imp fun (s s' : Step) (h : s' = { s with duration := s'.duration }) =>
    leads_singleton_congr (s := s) (h ▸ rfl) (h ▸ rfl))

end Step

end Fabrication
