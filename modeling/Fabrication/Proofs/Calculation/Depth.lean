import Mathlib
import Fabrication.Proofs.Calculation.Coverage

/-!
# Consumers lie above what they consume

A merged step is as deep as the deepest node of its recipe key in the expanded forest, and a
node's produced inputs sit one level below it, so a merged step whose recipe takes the product
of another lies strictly above it (`Step.Merged.consumer_shallower`). Reconciling and scheduling
keep every step's recipe key, product and depth (`Step.reconcile_place`,
`Step.schedule_place`), so the same holds of a calculated plan (`calculate_consumer_above`).

The product must not be excluded: an excluded material is expanded below no consumer, and a
step makes it only as a target of the request, at the top level, where its consumers may
stand too (`calculate_excluded_consumer_level`).
-/

namespace Fabrication

namespace Step

/-- What scheduling keeps of a step: its recipe key, product and depth. -/
def place (s : Step) : RecipeKey × Nat × Nat := (s.key, s.product, s.depth)

theorem place_eq_iff {s t : Step} :
    s.place = t.place ↔ s.key = t.key ∧ s.product = t.product ∧ s.depth = t.depth := by
  simp [place]

/-- The members of a split group stand where the step stood. -/
theorem splitStep_place {step : Step} {parts : List Nat} {σ τ : IdSupply} {members : List Step}
    (h : (Scheduler.splitStep step parts).run σ = .ok (members, τ)) :
    ∀ m ∈ members, m.place = step.place := by
  unfold Scheduler.splitStep at h
  obtain ⟨group, ρ, -, h⟩ := Planning.run_bind_ok h
  obtain ⟨⟨acc, assigned⟩, ρ', hfold, h⟩ := Planning.run_bind_ok h
  cases h
  obtain ⟨ms, hacc, hms⟩ := foldlM_prepend (fun (_ : Nat × Nat) (m : Step) => m.place = step.place)
    hfold fun acc x c ρ ρ' _ hx => by
      obtain ⟨members, assigned⟩ := acc
      obtain ⟨runs, index⟩ := x
      dsimp only at hx
      split at hx
      all_goals
        obtain ⟨id, ρ₁, -, hx⟩ := Planning.run_bind_ok hx
        split at hx
        on_goal 2 => obtain ⟨made, ρ₂, -, hx⟩ := Planning.run_bind_ok hx
        all_goals
          obtain ⟨q, ρ₃, -, hx⟩ := Planning.run_bind_ok hx
          cases hx
          exact ⟨_, rfl, rfl⟩
  intro m hm
  have hacc' : acc = ms.reverse := by simpa using hacc
  have hm' : m ∈ ms := by simpa [hacc'] using hm
  obtain ⟨x, -, hx⟩ := exists_of_forall₂_right hms hm'
  exact hx

/-- A step that splitting keeps or splits stands where a step it was given stood. -/
theorem splitExcept_place {sch : Scheduler} {steps steps' : List Step} {keep : List Ident}
    {σ τ : IdSupply} (h : (sch.splitExcept steps keep).run σ = .ok (steps', τ)) :
    ∀ y ∈ steps', ∃ s ∈ steps, y.place = s.place := by
  unfold Scheduler.splitExcept at h
  split at h
  · cases h
    exact fun y hy => ⟨y, hy, rfl⟩
  · rw [StateT.run_map] at h
    obtain ⟨⟨groups, τ'⟩, hm, he⟩ := ok_of_map h
    cases he
    have hrel := Planning.mapM_forall₂ (fun (s : Step) (ys : List Step) => ∀ y ∈ ys, y.place = s.place)
      hm fun s ys ρ ρ' _ hs => by
        split at hs
        · exact splitStep_place hs
        · cases hs
          exact fun y hy => by rw [List.mem_singleton.1 hy]
    intro y hy
    obtain ⟨ys, hys, hy⟩ := List.mem_flatten.1 hy
    obtain ⟨s, hs, hplace⟩ := exists_of_forall₂_right hrel hys
    exact ⟨s, hs, hplace y hy⟩

/-- Every scheduled step stands where a step it was given stood. -/
theorem schedule_place {sch : Scheduler} {steps steps' : List Step} {book : RecipeBook}
    {σ τ : IdSupply} (h : (sch.schedule steps book).run σ = .ok (steps', τ)) :
    ∀ y ∈ steps', ∃ s ∈ steps, y.place = s.place := by
  unfold Scheduler.schedule at h
  obtain ⟨timed, ρ, htimed, h⟩ := Planning.run_bind_ok h
  have hdur := attachDurations_forall₂ (Planning.run_ofFault_ok htimed).1
  intro y hy
  obtain ⟨t, ht, hyt⟩ := splitExcept_place h y hy
  obtain ⟨s, hs, hts⟩ := exists_of_forall₂_right hdur ht
  exact ⟨s, hs, hyt.trans (by rw [hts]; rfl)⟩

/-- Every reconciled step stands where a step it was given stood. -/
theorem reconcile_place {steps steps' : List Step} {book : RecipeBook}
    (h : reconcile steps book = .ok steps') : ∀ y ∈ steps', ∃ s ∈ steps, y.place = s.place := by
  intro y hy
  obtain ⟨s, hs, hsh⟩ := reconcile_source h y hy
  exact ⟨s, hs, (shape_congr hsh place fun _ => rfl).symm⟩

end Step

/-- Every step of a calculated plan other than a copy lies strictly above every step, other than
a copy, that makes an input of its recipe (the one the calculation read for its key), unless
the request excludes that input. -/
theorem calculate_consumer_above {config : EngineConfig} {table : SkillTable} {catalog : Catalog}
    {res : Resolver} {world : World} {req : PlanRequest} {supply supply' : IdSupply}
    {c : Calculation} (h : (calculate config table catalog res world req).run supply = .ok (c, supply'))
    {snap : Snapshot} (hsnap : Snapshot.load catalog res req.snapshotRequest config = .ok snap)
    {p s : Step} (hp : p ∈ c.steps) (hs : s ∈ c.steps) (hpc : p.isCopy = false)
    (hsc : s.isCopy = false) {r : Recipe} (hr : snap.book.get? s.key = some r)
    (hin : ∃ i ∈ r.inputs, i.material = p.product) (hx : p.product ∉ req.excluded) :
    s.depth < p.depth := by
  unfold calculate at h
  obtain ⟨-, σ₁, -, h⟩ := Planning.run_bind_ok h
  obtain ⟨snap', σ₂, hsnap', h⟩ := Planning.run_bind_ok h
  obtain ⟨trees, σ₃, htrees, h⟩ := Planning.run_bind_ok h
  obtain ⟨steps₁, σ₄, h₁, h⟩ := Planning.run_bind_ok h
  obtain ⟨steps₂, σ₅, h₂, h⟩ := Planning.run_bind_ok h
  obtain ⟨raw, σ₆, -, h⟩ := Planning.run_bind_ok h
  obtain ⟨sched, σ₇, -, h⟩ := Planning.run_bind_ok h
  obtain ⟨steps₃, σ₈, h₃, h⟩ := Planning.run_bind_ok h
  cases h
  obtain rfl : snap = snap' := by
    have hread := (Planning.run_ofFault_ok hsnap').1
    rw [hsnap] at hread
    cases hread
    rfl
  have hexp : ∀ t ∈ trees, ∀ x ∈ t.nodes, Node.Expanded snap req.excluded t.nodes x := by
    intro t ht
    obtain ⟨-, -, -, hnodes⟩ := exists_of_forall₂_right
      (Node.expandAll_expanded (Planning.run_ofOutcome_ok htrees).1) ht
    exact hnodes
  obtain ⟨merged, hm, hsteps⟩ := Step.ofForest_steps h₁
  have hback : ∀ y ∈ steps₃, y.isCopy = false → ∃ x ∈ merged, y.place = x.place := by
    intro y hy hyc
    obtain ⟨y₂, hy₂, hpl₂⟩ := Step.schedule_place h₃ y hy
    obtain ⟨y₁, hy₁, hpl₁⟩ := Step.reconcile_place (Planning.run_ofOutcome_ok h₂).1 y₂ hy₂
    have hpl := hpl₂.trans hpl₁
    have hcopy : y₁.isCopy = false :=
      (Step.isCopy_of_key (Step.place_eq_iff.1 hpl).1).symm.trans hyc
    exact ⟨y₁, (hsteps y₁ hy₁).1 hcopy, hpl⟩
  obtain ⟨P, hP, hpP⟩ := hback p hp hpc
  obtain ⟨C, hC, hsC⟩ := hback s hs hsc
  obtain ⟨-, hPprod, hPdepth⟩ := Step.place_eq_iff.1 hpP
  obtain ⟨hCkey, -, hCdepth⟩ := Step.place_eq_iff.1 hsC
  rw [hPdepth, hCdepth]
  exact hm.consumer_shallower hexp hP hC (hCkey ▸ hr) (hPprod ▸ hin) (hPprod ▸ hx)

/-- The request of `conversionFeed`: one `2`, which takes ten `1`. -/
def feedRequest : PlanRequest := { targets := [{ material := 2, quantity := 1 }] }

/-- In the plan for `feedRequest`, the build of `2` lies above the conversion making its `1`. -/
theorem calculate_consumer_above_feed :
    ∃ c σ, (calculate {} SkillTable.standard conversionFeed {} { recipes := conversionFeed.recipes }
        feedRequest).run {} = .ok (c, σ) ∧
      ∃ snap, Snapshot.load conversionFeed {} feedRequest.snapshotRequest {} = .ok snap ∧
        ∃ p ∈ c.steps, ∃ s ∈ c.steps, p.isCopy = false ∧ s.isCopy = false ∧
          (∃ r, snap.book.get? s.key = some r ∧ ∃ i ∈ r.inputs, i.material = p.product) ∧
          p.product ∉ feedRequest.excluded ∧ s.depth < p.depth := by
  obtain ⟨⟨c, σ⟩, hrun, hsteps⟩ := exists_ok_of_check
    (x := (calculate {} SkillTable.standard conversionFeed {} { recipes := conversionFeed.recipes }
      feedRequest).run {})
    (p := fun r => r.1.steps.any fun p => r.1.steps.any fun s =>
      !p.isCopy && !s.isCopy && p.product == 1 && s.key == ⟨2, .build⟩) (by decide)
  obtain ⟨snap, hsnap, hbook⟩ := exists_ok_of_check
    (x := Snapshot.load conversionFeed {} feedRequest.snapshotRequest {})
    (p := fun snap => snap.book.get? ⟨2, .build⟩ == some ⟨2, .build, [⟨1, 10⟩], [⟨2, 1⟩], 0⟩)
    (by decide)
  simp only [List.any_eq_true, Bool.and_eq_true, Bool.not_eq_true', beq_iff_eq] at hsteps
  obtain ⟨p, hp, s, hs, ⟨⟨hpc, hsc⟩, hprod⟩, hkey⟩ := hsteps
  have hr : snap.book.get? s.key = some ⟨2, .build, [⟨1, 10⟩], [⟨2, 1⟩], 0⟩ := by
    rw [hkey]
    simpa using hbook
  have hin : ∃ i ∈ (⟨2, .build, [⟨1, 10⟩], [⟨2, 1⟩], 0⟩ : Recipe).inputs, i.material = p.product :=
    ⟨⟨1, 10⟩, by simp, hprod.symm⟩
  have hx : p.product ∉ feedRequest.excluded := by simp [feedRequest]
  exact ⟨c, σ, hrun, snap, hsnap, p, hp, s, hs, hpc, hsc, ⟨_, hr, hin⟩, hx,
    calculate_consumer_above hrun hsnap hp hs hpc hsc hr hin hx⟩

/-- Two builds: `1` from a `9`, and `2` from a `1`. -/
def excludedFeed : Catalog :=
  { recipes := [⟨1, .build, [⟨9, 1⟩], [⟨1, 1⟩], 0⟩, ⟨2, .build, [⟨1, 1⟩], [⟨2, 1⟩], 0⟩] }

/-- A `2` and a `1`, with `1` excluded. -/
def excludedRequest : PlanRequest :=
  { targets := [{ material := 2, quantity := 1 }, { material := 1, quantity := 1 }], excluded := [1] }

/-- Without its condition on exclusion the order fails: the build of `2` takes a `1`, yet both
lie at the top level, since the excluded `1` is expanded below no consumer and is made only as
a target. -/
theorem calculate_excluded_consumer_level :
    ∃ c σ, (calculate {} SkillTable.standard excludedFeed {} { recipes := excludedFeed.recipes }
        excludedRequest).run {} = .ok (c, σ) ∧
      ∃ snap, Snapshot.load excludedFeed {} excludedRequest.snapshotRequest {} = .ok snap ∧
        ∃ p ∈ c.steps, ∃ s ∈ c.steps, s ≠ p ∧ p.isCopy = false ∧ s.isCopy = false ∧
          p.split = none ∧
          (∃ r, snap.book.get? s.key = some r ∧ ∃ i ∈ r.inputs, i.material = p.product) ∧
          ¬ s.depth < p.depth := by
  obtain ⟨⟨c, σ⟩, hrun, hsteps⟩ := exists_ok_of_check
    (x := (calculate {} SkillTable.standard excludedFeed {} { recipes := excludedFeed.recipes }
      excludedRequest).run {})
    (p := fun r => r.1.steps.any fun p => r.1.steps.any fun s =>
      !p.isCopy && !s.isCopy && p.split.isNone && p.product == 1 && s.product == 2 &&
        s.key == ⟨2, .build⟩ && p.depth ≤ s.depth) (by decide)
  obtain ⟨snap, hsnap, hbook⟩ := exists_ok_of_check
    (x := Snapshot.load excludedFeed {} excludedRequest.snapshotRequest {})
    (p := fun snap => snap.book.get? ⟨2, .build⟩ == some ⟨2, .build, [⟨1, 1⟩], [⟨2, 1⟩], 0⟩)
    (by decide)
  simp only [List.any_eq_true, Bool.and_eq_true, Bool.not_eq_true', beq_iff_eq,
    Option.isNone_iff_eq_none, decide_eq_true_eq] at hsteps
  obtain ⟨p, hp, s, hs, ⟨⟨⟨⟨⟨⟨hpc, hsc⟩, hsplit⟩, hpprod⟩, hsprod⟩, hkey⟩, hle⟩⟩ := hsteps
  have hne : s ≠ p := fun hsp => by
    rw [hsp, hpprod] at hsprod
    cases hsprod
  have hr : snap.book.get? s.key = some ⟨2, .build, [⟨1, 1⟩], [⟨2, 1⟩], 0⟩ := by
    rw [hkey]
    simpa using hbook
  exact ⟨c, σ, hrun, snap, hsnap, p, hp, s, hs, hne, hpc, hsc, hsplit,
    ⟨_, hr, ⟨1, 1⟩, by simp, hpprod.symm⟩, Nat.not_lt.2 hle⟩

end Fabrication
