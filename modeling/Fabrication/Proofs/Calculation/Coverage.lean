import Fabrication.Calculation
import Fabrication.Proofs.Snapshot
import Fabrication.Proofs.Step.Merge
import Fabrication.Proofs.Step.Reconcile
import Fabrication.Proofs.Step.Schedule
import Mathlib

/-!
# Conversions make what the plan consumes

A plan covers a material when what its steps make of it, with what it buys, reaches what the
targets ask for plus what its logical steps consume of it, each by the catalogue's recipe for
its key (`Calculation.Covers`). A logical step is a step other than a copy, or a whole split
group taken with its total runs.

Every material that a conversion of a calculated plan makes, and that the request does not
exclude, is covered (`calculate_covers_conversions`). The argument follows the calculation:
a merged step sits at the depth of its deepest tree node, so every conversion that consumes a
conversion's product is shallower than it; reconciling, which visits conversions shallowest
first, then gives each conversion its target plus the final demand on it; and scheduling
keeps what is made and what every logical step reads.

Built intermediates are not reconciled, and a build reached at two depths is merged into one
step whose runs are computed once: such a plan may make less than it consumes
(`calculate_undercovers_merged_build`).
-/

namespace Fabrication

/-- Units of a material that the targets ask for. -/
def askedFor (targets : List Target) (m : Nat) : Nat :=
  ((targets.filter (·.material == m)).map (·.quantity)).sum

/-- Units of a material that a plan buys. -/
def boughtOf (raw : List (Nat × Nat)) (m : Nat) : Nat :=
  ((raw.find? (·.1 == m)).map (·.2)).getD 0

theorem Expansion.key_of_recipe {e : Expansion} {R : Recipe} (hid : e.recipe = R.id)
    (hact : e.activity = R.activity) : e.key = R.key := by
  simp [Expansion.key, Recipe.key, hid, hact]

theorem Recipe.exists_input_of_inputQuantity {r : Recipe} {m : Nat}
    (h : r.inputQuantity m ≠ .ok none) : ∃ p ∈ r.inputs, p.material = m := by
  unfold Recipe.inputQuantity at h
  cases hps : r.inputsOf m with
  | nil => rw [hps] at h; exact absurd rfl h
  | cons p ps =>
    have hp : p ∈ r.inputsOf m := by rw [hps]; exact List.mem_cons_self
    obtain ⟨hp, hpm⟩ := List.mem_filter.1 hp
    exact ⟨p, hp, by simpa using hpm⟩

namespace Step

/-- Units of `m` that the logical step a step stands for consumes, by the catalogue's recipe
for its key. -/
def need (catalog : Catalog) (m : Nat) (c : Step) : Except Fault Nat :=
  match catalog.findRecipe c.key with
  | none => pure 0
  | some r => do
    match ← r.inputQuantity m with
    | none => pure 0
    | some base => requiredQuantity base c.logicalRuns c.activity c.me c.matBonus

/-- Units of `m` that the logical steps not making `m` consume. -/
def logicalDemand (catalog : Catalog) (steps : List Step) (m : Nat) : Except Fault Nat :=
  ((steps.filter fun c => c.leads && c.product != m).mapM (need catalog m)).map List.sum

theorem le_made {steps : List Step} {s : Step} (hs : s ∈ steps) (hcopy : s.isCopy = false) :
    s.quantity ≤ made steps s.product := by
  unfold made
  apply List.le_sum_of_mem
  exact List.mem_map_of_mem (List.mem_filter.2 ⟨hs, by simp [hcopy]⟩)

theorem need_congr {catalog : Catalog} {m : Nat} {c c' : Step}
    (h : logicalView c' = logicalView c) : need catalog m c' = need catalog m c := by
  simp only [logicalView, Prod.mk.injEq] at h
  obtain ⟨hkey, hruns, hme, hbonus, -⟩ := h
  have hact : c'.activity = c.activity := congrArg RecipeKey.activity hkey
  simp only [need, hkey, hruns, hme, hbonus, hact]

/-- The logical demand reads only the logical steps, and of each only its logical view. -/
theorem logicalDemand_congr {catalog : Catalog} {l l' : List Step} {m : Nat}
    (h : (l'.filter leads).map logicalView = (l.filter leads).map logicalView) :
    logicalDemand catalog l' m = logicalDemand catalog l m := by
  have hf : ∀ l : List Step, l.filter (fun c => c.leads && c.product != m) =
      (l.filter leads).filter (·.product != m) := fun l => by
    rw [List.filter_filter]
    simp only [Bool.and_comm]
  unfold logicalDemand
  rw [hf, hf]
  congr 1
  generalize l'.filter leads = a' at h
  generalize l.filter leads = a at h
  induction a generalizing a' with
  | nil => cases a' with
    | nil => rfl
    | cons c' a' => cases h
  | cons c a ih => cases a' with
    | nil => cases h
    | cons c' a' =>
      simp only [List.map_cons, List.cons.injEq] at h
      have hprod : c'.product = c.product := congrArg (·.2.2.2.2) h.1
      rw [List.filter_cons, List.filter_cons, hprod]
      split
      · rw [List.mapM_cons, List.mapM_cons, need_congr h.1, ih a' h.2]
      · exact ih a' h.2

/-- What one unsplit step adds to the demand for `m`, the logical demand counts for its
logical step, provided the book's recipe for its key is the catalogue's. -/
theorem demandStep_need {catalog : Catalog} {book : RecipeBook} {m a a' : Nat} {c : Step}
    (h : demandStep book m a c = .ok a') (hsplit : c.split = none) (hbought : c.purchased = false)
    (hbook : c.isCopy = false → ∃ r, book.get? c.key = some r ∧ catalog.findRecipe c.key = some r) :
    ∃ x, a' = a + x ∧ (c.leads = true → need catalog m c = .ok x) := by
  unfold demandStep at h
  cases hcopy : c.isCopy with
  | true =>
    rw [if_pos (by simp [hcopy])] at h
    cases h
    exact ⟨0, rfl, fun hl => by simp [leads, hcopy] at hl⟩
  | false =>
    obtain ⟨r, hr, hfind⟩ := hbook hcopy
    rw [if_neg (by simp [hcopy, hbought]), hr] at h
    have hruns : c.logicalRuns = c.runs := by simp [logicalRuns, hsplit]
    obtain ⟨q, hq, h⟩ := ok_of_bind h
    cases q with
    | none =>
      cases h
      exact ⟨0, rfl, fun _ => by rw [need, hfind]; simp only [hq]; rfl⟩
    | some base =>
      obtain ⟨y, hy, h⟩ := ok_of_bind h
      exact ⟨y, Count.eq_of_add?_ok h, fun _ => by rw [need, hfind]; simp only [hq, hruns]; exact hy⟩

/-- Along the demand fold from position `k`, skipping the producer at `i`, the logical demand
of the steps visited is at most what the fold adds. -/
theorem foldlM_demandStep_le {catalog : Catalog} {book : RecipeBook} {i m : Nat} (l : List Step)
    (k a D : Nat)
    (h : (l.zipIdx k).foldlM (fun acc (ci : Step × Nat) =>
      if ci.2 = i then pure acc else demandStep book m acc ci.1) a = .ok D)
    (hi : ∀ (j : Nat) c, l[j]? = some c → j + k = i → c.product = m)
    (hplain : ∀ c ∈ l, c.split = none ∧ c.purchased = false)
    (hbook : ∀ c ∈ l, c.isCopy = false →
      ∃ r, book.get? c.key = some r ∧ catalog.findRecipe c.key = some r) :
    ∃ ds, (l.filter fun c => c.leads && c.product != m).mapM (need catalog m) = .ok ds ∧
      a + ds.sum ≤ D := by
  induction l generalizing k a with
  | nil =>
    cases h
    exact ⟨[], rfl, by simp⟩
  | cons c l ih =>
    rw [List.zipIdx_cons, List.foldlM_cons] at h
    obtain ⟨a', ha', h⟩ := ok_of_bind h
    obtain ⟨x, rfl, hneed⟩ : ∃ x, a' = a + x ∧
        ((c.leads && c.product != m) = true → need catalog m c = .ok x) := by
      dsimp only at ha'
      split at ha'
      · cases ha'
        have hprod : c.product = m := hi 0 c rfl (by omega)
        exact ⟨0, rfl, fun hq => by simp [hprod] at hq⟩
      · obtain ⟨hsplit, hbought⟩ := hplain c List.mem_cons_self
        obtain ⟨x, hx, hn⟩ := demandStep_need ha' hsplit hbought (hbook c List.mem_cons_self)
        exact ⟨x, hx, fun hq => hn (Bool.and_eq_true_iff.1 hq).1⟩
    obtain ⟨ds, hds, hle⟩ := ih (k + 1) (a + x) h
      (fun j c' hc' hj => hi (j + 1) c' hc' (by omega))
      (fun c' hc' => hplain c' (List.mem_cons_of_mem _ hc'))
      (fun c' hc' => hbook c' (List.mem_cons_of_mem _ hc'))
    rw [List.filter_cons]
    split
    · rename_i hq
      refine ⟨x :: ds, ?_, ?_⟩
      · rw [List.mapM_cons, hneed hq, hds]
        rfl
      · rw [List.sum_cons]
        omega
    · exact ⟨ds, hds, by omega⟩

/-- The logical demand for a producer's product is at most the demand that reconciling puts
on the producer, when no step is split or bought and the book's recipes are the catalogue's. -/
theorem logicalDemand_le_demandFor {catalog : Catalog} {book : RecipeBook} {steps : List Step}
    {i m D : Nat} (h : demandFor steps book i m = .ok D)
    (hi : ∀ c, steps[i]? = some c → c.product = m)
    (hplain : ∀ c ∈ steps, c.split = none ∧ c.purchased = false)
    (hbook : ∀ c ∈ steps, c.isCopy = false →
      ∃ r, book.get? c.key = some r ∧ catalog.findRecipe c.key = some r) :
    ∃ d, logicalDemand catalog steps m = .ok d ∧ d ≤ D := by
  rw [demandFor_eq] at h
  obtain ⟨ds, hds, hle⟩ := foldlM_demandStep_le steps 0 0 D h
    (fun j c hc hj => hi c (by rw [← hj]; exact hc)) hplain hbook
  refine ⟨ds.sum, ?_, by omega⟩
  rw [logicalDemand, hds]
  rfl

theorem askedFor_le_rootQuantity {targets : List Target} {forest : List Node} {m : Nat}
    {k : RecipeKey} (h : List.Forall₂ (fun (t : Target) (n : Node) =>
      n.head.quantity = t.quantity ∧ (t.material = m → n.head.key = k)) targets forest) :
    askedFor targets m ≤ rootQuantity (forest.map (·.head)) k := by
  induction h with
  | nil => simp [askedFor, rootQuantity]
  | @cons t n ts ns hq _ ih =>
    unfold askedFor rootQuantity at ih ⊢
    by_cases ht : t.material = m
    · simpa [ht, hq.2 ht, hq.1] using ih
    · by_cases hk : n.head.key = k
      · simp only [ht, hk, List.filter_cons, beq_self_eq_true, beq_iff_eq, if_false, if_true,
          List.map_cons, List.sum_cons]
        omega
      · simpa [ht, hk] using ih

section Forest

variable {snap : Snapshot} {excluded : List Nat} {forest : List Node} {roots : List Expansion}
  {merged : List Step}

theorem mem_heads {e : Expansion} :
    e ∈ forest.flatMap (fun t => t.nodes.map (·.head)) ↔ ∃ t ∈ forest, ∃ x ∈ t.nodes, x.head = e := by
  simp [List.mem_flatMap]

/-- A merged step runs the producer of its product. -/
theorem Merged.producer
    (hexp : ∀ t ∈ forest, ∀ x ∈ t.nodes, Node.Expanded snap excluded t.nodes x)
    (hm : Merged (forest.flatMap fun t => t.nodes.map (·.head)) roots merged) {s : Step}
    (hs : s ∈ merged) : ∃ R, snap.producerOf s.product = some R ∧ s.key = R.key := by
  obtain ⟨e, he, hek, hem⟩ := hm.products s hs
  obtain ⟨t, ht, x, hx, rfl⟩ := mem_heads.1 he
  obtain ⟨R, hR, hid, hact, -⟩ := hexp t ht x hx
  exact ⟨R, hem ▸ hR, hek.symm.trans (Expansion.key_of_recipe hid hact)⟩

/-- A merged step whose recipe uses the product of another merged step, not excluded, lies
above it: the node it is as deep as has a child one level deeper that makes the product, and
the other step is as deep as its deepest node. -/
theorem Merged.consumer_shallower
    (hexp : ∀ t ∈ forest, ∀ x ∈ t.nodes, Node.Expanded snap excluded t.nodes x)
    (hm : Merged (forest.flatMap fun t => t.nodes.map (·.head)) roots merged) {P c : Step}
    {r : Recipe} (hP : P ∈ merged) (hc : c ∈ merged) (hr : snap.book.get? c.key = some r)
    (hin : ∃ p ∈ r.inputs, p.material = P.product) (hx : P.product ∉ excluded) :
    c.depth < P.depth := by
  obtain ⟨e, he, hek, hed⟩ := hm.attained c hc
  obtain ⟨t, ht, x, hxt, rfl⟩ := mem_heads.1 he
  obtain ⟨R, hR, hid, hact, hinputs⟩ := hexp t ht x hxt
  have hrR : r = R := by
    rw [← hek, Expansion.key_of_recipe hid hact, Snapshot.get?_of_producerOf hR] at hr
    exact (Option.some.inj hr).symm
  subst hrR
  obtain ⟨p, hp, hpm⟩ := hin
  obtain ⟨R', hR', hPk⟩ := hm.producer hexp hP
  obtain ⟨y, hy, hym, hyd⟩ := hinputs p hp (hpm ▸ hx) (by rw [hpm, hR']; rfl)
  -- the child making `P`'s product runs `P`'s recipe, so it merged into `P`
  have hyk : y.head.key = P.key := by
    obtain ⟨R'', hR'', hid', hact', -⟩ := hexp t ht y hy
    rw [hym, hpm, hR'] at hR''
    cases hR''
    rw [hPk]
    exact Expansion.key_of_recipe hid' hact'
  obtain ⟨s, hs, hsk, hsd⟩ := hm.deepest y.head (mem_heads.2 ⟨t, ht, y, hy, rfl⟩)
  have hsP : s = P := List.inj_on_of_nodup_map hm.keys hs hP (hsk.trans hyk)
  subst hsP
  omega

/-- Before reconciling, no step is split or bought, and every step other than a copy is a
merged step. -/
theorem ofForest_steps {config : EngineConfig} {steps : List Step} {σ τ : IdSupply}
    (h : (ofForest forest snap config).run σ = .ok (steps, τ)) :
    ∃ merged, Merged (forest.flatMap fun t => t.nodes.map (·.head)) (forest.map (·.head)) merged ∧
      ∀ c ∈ steps, (c.isCopy = false → c ∈ merged) ∧ c.split = none ∧ c.purchased = false := by
  obtain ⟨merged, copies, hm, hcopies, hperm⟩ := ofForest_merged h
  refine ⟨merged, hm, fun c hc => ?_⟩
  rcases List.mem_append.1 (hperm.subset hc) with hcm | hcc
  · exact ⟨fun _ => hcm, hm.plain c hcm⟩
  · obtain ⟨hcopy, hsplit, hbought⟩ := hcopies c hcc
    exact ⟨(fun h => by rw [hcopy] at h; cases h), hsplit, hbought⟩

variable {catalog : Catalog} {config : EngineConfig} {steps₁ steps₂ : List Step} {σ τ : IdSupply}

/-- Before scheduling, no step is split or bought. -/
theorem reconciled_plain (h₁ : (ofForest forest snap config).run σ = .ok (steps₁, τ))
    (h₂ : reconcile steps₁ snap.book = .ok steps₂) :
    ∀ c ∈ steps₂, c.split = none ∧ c.purchased = false := by
  obtain ⟨merged, -, hsteps⟩ := ofForest_steps h₁
  intro c hc
  obtain ⟨c₁, hc₁, hsh⟩ := reconcile_source h₂ c hc
  obtain ⟨-, hsplit, hbought⟩ := hsteps c₁ hc₁
  exact ⟨(shape_congr hsh split fun _ => rfl).symm.trans hsplit,
    (shape_congr hsh purchased fun _ => rfl).symm.trans hbought⟩

/-- Before scheduling, every step other than a copy runs the book's recipe for its key, which
is the catalogue's. -/
theorem reconciled_book (hkeys : (catalog.recipes.map (·.key)).Nodup)
    (hwithin : Snapshot.Within catalog snap)
    (hexp : ∀ t ∈ forest, ∀ x ∈ t.nodes, Node.Expanded snap excluded t.nodes x)
    (h₁ : (ofForest forest snap config).run σ = .ok (steps₁, τ))
    (h₂ : reconcile steps₁ snap.book = .ok steps₂) :
    ∀ c ∈ steps₂, c.isCopy = false →
      ∃ r, snap.book.get? c.key = some r ∧ catalog.findRecipe c.key = some r := by
  obtain ⟨merged, hm, hsteps⟩ := ofForest_steps h₁
  intro c hc hcopy
  obtain ⟨c₁, hc₁, hsh⟩ := reconcile_source h₂ c hc
  have hc₁m : c₁ ∈ merged := (hsteps c₁ hc₁).1 ((shape_congr hsh isCopy fun _ => rfl).trans hcopy)
  obtain ⟨R, hR, hk⟩ := hm.producer hexp hc₁m
  have hget : snap.book.get? c.key = some R := by
    rw [← shape_congr hsh key fun _ => rfl, hk]
    exact Snapshot.get?_of_producerOf hR
  exact ⟨R, hget, Snapshot.findRecipe_of_get? hkeys hwithin hget⟩

/-- Before scheduling, a conversion making a material that the request does not exclude makes
at least what the targets ask for and the logical steps consume of it. -/
theorem reconciled_covers {targets : List Target} (hkeys : (catalog.recipes.map (·.key)).Nodup)
    (hwithin : Snapshot.Within catalog snap)
    (hforest : List.Forall₂ (fun (t : Target) (n : Node) =>
      (n.head.material = t.material ∧ n.head.quantity = t.quantity ∧ n.head.depth = 0) ∧
        ∀ x ∈ n.nodes, Node.Expanded snap excluded n.nodes x) targets forest)
    (h₁ : (ofForest forest snap config).run σ = .ok (steps₁, τ))
    (h₂ : reconcile steps₁ snap.book = .ok steps₂) {s : Step} (hs : s ∈ steps₂)
    (hconv : s.activity = .convert) (hx : s.product ∉ excluded) :
    ∃ d, logicalDemand catalog steps₂ s.product = .ok d ∧
      askedFor targets s.product + d ≤ made steps₂ s.product := by
  have hexp : ∀ t ∈ forest, ∀ x ∈ t.nodes, Node.Expanded snap excluded t.nodes x := by
    intro t ht
    obtain ⟨-, -, -, hnodes⟩ := exists_of_forall₂_right hforest ht
    exact hnodes
  obtain ⟨merged, hm, hsteps⟩ := ofForest_steps h₁
  obtain ⟨i, hi⟩ := List.mem_iff_getElem?.1 hs
  obtain ⟨P, hP, hsh⟩ := exists_of_shape (reconcile_frame h₂).2 hi
  have hPconv : P.activity = .convert := (shape_congr hsh activity fun _ => rfl).trans hconv
  have hPprod : P.product = s.product := shape_congr hsh product fun _ => rfl
  have hPm : P ∈ merged := (hsteps P (List.mem_of_getElem? hP)).1 (by simp [isCopy, hPconv])
  -- every conversion consuming `P`'s product lies above `P`, so reconciling covers `P`
  obtain ⟨D, P', hD, hP', -, hcover⟩ := reconcile_covers h₂ hP hPconv fun j c hc _ hcons => by
    obtain ⟨hcopy, -, r, hr, hin⟩ := hcons
    exact hm.consumer_shallower hexp hPm ((hsteps c (List.mem_of_getElem? hc)).1 hcopy) hr
      (Recipe.exists_input_of_inputQuantity hin) (hPprod ▸ hx)
  have hP's : P' = s := (Option.some.inj (hi.symm.trans hP')).symm
  rw [hP's] at hcover
  obtain ⟨d, hd, hdD⟩ := logicalDemand_le_demandFor hD
    (fun c hc => by rw [hi] at hc; cases hc; exact hPprod.symm)
    (reconciled_plain h₁ h₂) (reconciled_book hkeys hwithin hexp h₁ h₂)
  obtain ⟨R, hR, hPk⟩ := hm.producer hexp hPm
  have hroots : List.Forall₂ (fun (t : Target) (n : Node) =>
      n.head.quantity = t.quantity ∧ (t.material = P.product → n.head.key = P.key)) targets forest :=
    hforest.imp fun t n hn => ⟨hn.1.2.1, fun htm => by
      obtain ⟨R', hR', hid, hact, -⟩ := hn.2 n (Node.self_mem_nodes n)
      rw [hn.1.1, htm, hR] at hR'
      cases hR'
      rw [hPk]
      exact Expansion.key_of_recipe hid hact⟩
  have hasked : askedFor targets P.product ≤ P.target := by
    rw [hm.target P hPm]
    exact askedFor_le_rootQuantity hroots
  have hmade := le_made hs (by simp [isCopy, hconv])
  rw [← hPprod] at hmade ⊢
  exact ⟨d, hd, by omega⟩

end Forest

end Step

namespace Calculation

/-- A plan covers `m` when what it makes and buys of `m` reaches what the targets ask for and
its logical steps consume. -/
def Covers (catalog : Catalog) (req : PlanRequest) (c : Calculation) (m : Nat) : Prop :=
  ∃ d, Step.logicalDemand catalog c.steps m = .ok d ∧
    askedFor req.targets m + d ≤ Step.made c.steps m + boughtOf c.raw m

/-- Whether a plan covers `m`, computed. -/
def coversB (catalog : Catalog) (req : PlanRequest) (c : Calculation) (m : Nat) : Bool :=
  match Step.logicalDemand catalog c.steps m with
  | .ok d => decide (askedFor req.targets m + d ≤ Step.made c.steps m + boughtOf c.raw m)
  | .error _ => false

theorem covers_iff_coversB {catalog : Catalog} {req : PlanRequest} {c : Calculation} {m : Nat} :
    Covers catalog req c m ↔ coversB catalog req c m = true := by
  unfold Covers coversB
  cases Step.logicalDemand catalog c.steps m with
  | error e => simp
  | ok d => simp

instance (catalog : Catalog) (req : PlanRequest) (c : Calculation) (m : Nat) :
    Decidable (Covers catalog req c m) :=
  decidable_of_iff _ covers_iff_coversB.symm

end Calculation

/-- Every material that a conversion of a calculated plan makes, and that the request does not
exclude, is covered, when the catalogue holds one recipe per key. -/
theorem calculate_covers_conversions {config : EngineConfig} {table : SkillTable}
    {catalog : Catalog} {res : Resolver} {world : World} {req : PlanRequest}
    {supply supply' : IdSupply} {c : Calculation} {m : Nat}
    (hkeys : (catalog.recipes.map (·.key)).Nodup)
    (h : (calculate config table catalog res world req).run supply = .ok (c, supply'))
    (hconv : ∃ s ∈ c.steps, s.activity = .convert ∧ s.product = m) (hx : m ∉ req.excluded) :
    c.Covers catalog req m := by
  unfold calculate at h
  obtain ⟨-, σ₁, -, h⟩ := Planning.run_bind_ok h
  obtain ⟨snap, σ₂, hsnap, h⟩ := Planning.run_bind_ok h
  obtain ⟨trees, σ₃, htrees, h⟩ := Planning.run_bind_ok h
  obtain ⟨steps₁, σ₄, h₁, h⟩ := Planning.run_bind_ok h
  obtain ⟨steps₂, σ₅, h₂, h⟩ := Planning.run_bind_ok h
  obtain ⟨raw, σ₆, -, h⟩ := Planning.run_bind_ok h
  obtain ⟨sched, σ₇, -, h⟩ := Planning.run_bind_ok h
  obtain ⟨steps₃, σ₈, h₃, h⟩ := Planning.run_bind_ok h
  cases h
  have h₂ := (Planning.run_ofOutcome_ok h₂).1
  obtain ⟨s₃, hs₃, hact, rfl⟩ := hconv
  obtain ⟨s, hs, hkey, hprod⟩ := Step.schedule_source h₃ s₃ hs₃
  have hsconv : s.activity = .convert := (congrArg RecipeKey.activity hkey).symm.trans hact
  obtain ⟨d, hd, hle⟩ := Step.reconciled_covers hkeys
    (Snapshot.load_within (Planning.run_ofFault_ok hsnap).1)
    (Node.expandAll_expanded (Planning.run_ofOutcome_ok htrees).1) h₁ h₂ hs hsconv (hprod ▸ hx)
  unfold Calculation.Covers
  dsimp only
  refine ⟨d, ?_, ?_⟩
  · rw [Step.logicalDemand_congr (Step.schedule_leads h₃ fun c hc =>
      (Step.reconciled_plain h₁ h₂ c hc).1), hprod]
    exact hd
  · rw [Step.schedule_made h₃, hprod]
    omega

/-- One conversion feeding one build: ten units of `1`, converted from `9`, make a `2`. -/
def conversionFeed : Catalog :=
  { recipes := [⟨1, .convert, [⟨9, 1⟩], [⟨1, 1⟩], 0⟩, ⟨2, .build, [⟨1, 10⟩], [⟨2, 1⟩], 0⟩] }

theorem calculate_covers_conversionFeed :
    ∃ c σ, (calculate {} SkillTable.standard conversionFeed {} { recipes := conversionFeed.recipes }
        { targets := [{ material := 2, quantity := 1 }] }).run {} = .ok (c, σ) ∧
      (∃ s ∈ c.steps, s.activity = .convert ∧ s.product = 1) ∧
      c.Covers conversionFeed { targets := [{ material := 2, quantity := 1 }] } 1 := by
  obtain ⟨⟨c, σ⟩, hrun, hconv⟩ := exists_ok_of_check
    (x := (calculate {} SkillTable.standard conversionFeed {} { recipes := conversionFeed.recipes }
      { targets := [{ material := 2, quantity := 1 }] }).run {})
    (p := fun r => r.1.steps.any fun s => s.activity == .convert && s.product == 1) (by decide)
  have hs : ∃ s ∈ c.steps, s.activity = .convert ∧ s.product = 1 := by simpa using hconv
  exact ⟨c, σ, hrun, hs, calculate_covers_conversions (by decide) hrun hs (by simp)⟩

/-- Three builds in a chain: `1` takes a `2`, `2` takes ten `3`, and `3` takes a `4`. -/
def buildChain : Catalog :=
  { recipes := [⟨1, .build, [⟨2, 1⟩], [⟨1, 1⟩], 0⟩, ⟨2, .build, [⟨3, 10⟩], [⟨2, 1⟩], 0⟩,
      ⟨3, .build, [⟨4, 1⟩], [⟨3, 1⟩], 0⟩] }

/-- Asking for a `2` and for a `1`, which takes another `2`, plans too few of the built `3`:
the two nodes of `2` merge into one step, whose runs and efficiency come from the target's node
while the `3` below was planned from each node on its own. -/
theorem calculate_undercovers_merged_build :
    ∃ c σ, (calculate {} SkillTable.standard buildChain {} { recipes := buildChain.recipes }
        { targets := [{ material := 2, quantity := 1 }, { material := 1, quantity := 1 }] }).run {} =
        .ok (c, σ) ∧
      ¬ c.Covers buildChain
        { targets := [{ material := 2, quantity := 1 }, { material := 1, quantity := 1 }] } 3 := by
  obtain ⟨⟨c, σ⟩, hrun, hc⟩ := exists_ok_of_check
    (x := (calculate {} SkillTable.standard buildChain {} { recipes := buildChain.recipes }
      { targets := [{ material := 2, quantity := 1 }, { material := 1, quantity := 1 }] }).run {})
    (p := fun r => !decide (r.1.Covers buildChain
      { targets := [{ material := 2, quantity := 1 }, { material := 1, quantity := 1 }] } 3))
    (by decide)
  exact ⟨c, σ, hrun, by simpa using hc⟩

end Fabrication
