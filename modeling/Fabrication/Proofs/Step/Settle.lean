import Mathlib
import Fabrication.Proofs.Step.Reconcile
import Fabrication.Proofs.Step.Kahn

/-!
# Reconciling settles the conversion steps

Reconciling visits the conversion steps in order of depth and recipe id, and sets each to its
target plus the demand that the other steps put on its product at that moment. Suppose every
conversion step that uses the product of a conversion step comes before it in that order, its
own product included (`ConsumersFirst`). Then the conversions depend on one another without a
cycle, and reconciling never refuses them (`checkCycles_ok`). Every consumer of a conversion is
also final by the conversion's turn, so the demand read there is the demand the final steps put
on it (`foldlM_conversionOrder_turn`).

The result is settled (`Settled`): each conversion step with a target or a demand makes its
target plus the units the other final steps use of its product (`demandOn`), in the runs that
quantity needs, and every other step is as it was. Reconciling the result again changes
nothing (`reconcile_settles`). Reconciling can still break down on a count past the largest
one.
-/

namespace Fabrication

namespace Step

/-- `c` is visited strictly before `p` when reconciling: it is shallower, or as deep with a
smaller recipe id. -/
def KeyBelow (c p : Step) : Prop :=
  c.depth < p.depth ∨ (c.depth = p.depth ∧ c.recipe < p.recipe)

instance (c p : Step) : Decidable (KeyBelow c p) := inferInstanceAs (Decidable (_ ∨ _))

/-- Depth, then recipe id: the order in which conversion steps are reconciled. -/
def orderKey (s : Step) : ℕ ×ₗ ℕ := toLex (s.depth, s.recipe)

theorem keyBelow_iff {c p : Step} : KeyBelow c p ↔ c.orderKey < p.orderKey := by
  unfold KeyBelow orderKey
  rw [Prod.Lex.toLex_lt_toLex]

/-- Every conversion step whose recipe uses the product of a conversion step, its own product
included, comes before that step. -/
def ConsumersFirst (steps : List Step) (book : RecipeBook) : Prop :=
  ∀ c ∈ steps, ∀ p ∈ steps, c.activity = .convert → p.activity = .convert →
    ∀ r ∈ book.get? c.key, p.product ∈ r.inputMaterials → KeyBelow c p

instance (steps : List Step) (book : RecipeBook) : Decidable (ConsumersFirst steps book) :=
  inferInstanceAs (Decidable (∀ c ∈ steps, ∀ p ∈ steps, _))

/-- Steps that differ only in quantities and runs keep their consumers first. -/
theorem ConsumersFirst.of_shapes {steps R : List Step} {book : RecipeBook}
    (h : ConsumersFirst steps book) (hsrc : ∀ s ∈ R, ∃ s₀ ∈ steps, shape s₀ = shape s) :
    ConsumersFirst R book := by
  intro c hc p hp hcconv hpconv r hr hm
  obtain ⟨c₀, hc₀, hcs⟩ := hsrc c hc
  obtain ⟨p₀, hp₀, hps⟩ := hsrc p hp
  have hbelow : KeyBelow c₀ p₀ :=
    h c₀ hc₀ p₀ hp₀ (hcconv ▸ shape_congr hcs activity fun _ => rfl)
      (hpconv ▸ shape_congr hps activity fun _ => rfl) r
      ((shape_congr hcs key fun _ => rfl).symm ▸ hr) ((shape_congr hps product fun _ => rfl).symm ▸ hm)
  have hcd : c₀.depth = c.depth := shape_congr hcs depth fun _ => rfl
  have hcr : c₀.recipe = c.recipe := shape_congr hcs recipe fun _ => rfl
  have hpd : p₀.depth = p.depth := shape_congr hps depth fun _ => rfl
  have hpr : p₀.recipe = p.recipe := shape_congr hps recipe fun _ => rfl
  unfold KeyBelow at hbelow ⊢
  omega

theorem mem_inputMaterials {r : Recipe} {m : Nat} :
    m ∈ r.inputMaterials ↔ ∃ x ∈ r.inputs, x.material = m := by
  have h := @mem_ascendingSet m (r.inputs.map (·.material))
  rw [List.mem_map] at h
  exact h

/-- A step that adds to the demand for a material has a recipe that lists it as an input. -/
theorem uses_of_consumes {book : RecipeBook} {m : Nat} {c : Step} (h : Consumes book m c) :
    ∃ r, book.get? c.key = some r ∧ m ∈ r.inputMaterials := by
  obtain ⟨-, -, r, hr, hq⟩ := h
  refine ⟨r, hr, mem_inputMaterials.2 ?_⟩
  cases hps : r.inputsOf m with
  | nil => simp [Recipe.inputQuantity, hps] at hq
  | cons x xs =>
    have hx : x ∈ r.inputsOf m := by rw [hps]; exact List.mem_cons_self
    obtain ⟨hx, hxm⟩ := List.mem_filter.1 hx
    exact ⟨x, hx, by simpa using hxm⟩

/-! ## No cycles -/

/-- An edge of the feeding relation runs from a conversion to a conversion whose recipe uses its
product. -/
theorem feeds_spec {conversions : List Step} {book : RecipeBook} {p j : Nat}
    (h : (p, j) ∈ feeds conversions book) :
    ∃ P C r, conversions[p]? = some P ∧ conversions[j]? = some C ∧ book.get? C.key = some r ∧
      P.product ∈ r.inputMaterials := by
  unfold feeds at h
  obtain ⟨⟨C, j'⟩, hmem, h⟩ := List.mem_flatMap.1 h
  cases hr : book.get? C.key with
  | none => simp [hr] at h
  | some r =>
    simp only [hr] at h
    obtain ⟨m, hm, hpm⟩ := List.mem_filterMap.1 h
    simp only [Option.map_map, Option.map_eq_some_iff] at hpm
    obtain ⟨⟨P, p'⟩, hfind, hpair⟩ := hpm
    simp only [Function.comp_apply, Prod.mk.injEq] at hpair
    obtain ⟨rfl, rfl⟩ := hpair
    have hP : conversions[p']? = some P :=
      List.mem_zipIdx_iff_getElem?.1 (List.mem_reverse.1 (List.mem_of_find?_eq_some hfind))
    have hprod : P.product = m := by simpa using List.find?_some hfind
    exact ⟨P, C, r, hP, List.mem_zipIdx_iff_getElem?.1 hmem, hr, hprod ▸ hm⟩

theorem feeds_lt {conversions : List Step} {book : RecipeBook} {p j : Nat}
    (h : (p, j) ∈ feeds conversions book) : p < conversions.length ∧ j < conversions.length := by
  obtain ⟨P, C, -, hP, hC, -⟩ := feeds_spec h
  exact ⟨(List.getElem?_eq_some_iff.1 hP).1, (List.getElem?_eq_some_iff.1 hC).1⟩

/-- With consumers first, the conversions depend on one another without a cycle. -/
theorem checkCycles_ok {steps : List Step} {book : RecipeBook} (h : ConsumersFirst steps book) :
    checkCycles steps book = .ok () := by
  unfold checkCycles
  dsimp only
  set conversions := steps.filter (·.activity == .convert)
  -- a conversion is fed only by conversions that come after it
  have hdesc : ∀ p j, (p, j) ∈ feeds conversions book →
      (conversions.getD j default).orderKey < (conversions.getD p default).orderKey := by
    intro p j hpj
    obtain ⟨P, C, r, hP, hC, hr, hm⟩ := feeds_spec hpj
    have hPmem := List.mem_filter.1 (List.mem_of_getElem? hP)
    have hCmem := List.mem_filter.1 (List.mem_of_getElem? hC)
    rw [List.getD_eq_getElem?_getD, List.getD_eq_getElem?_getD, hP, hC]
    exact keyBelow_iff.1 (h C hCmem.1 P hPmem.1 (by simpa using hCmem.2) (by simpa using hPmem.2)
      r hr hm)
  have hacyclic : ¬ ∃ v, FedFromCycle (fun p c => (p, c) ∈ feeds conversions book) v :=
    fun ⟨v, hv⟩ => not_fedFromCycle_of_rank _ hdesc v hv
  rw [if_neg (mt (Kahn.drain_visited_lt_iff fun _ _ => feeds_lt).1 hacyclic)]

/-! ## One pass -/

/-- What reconciling one position does: it reads the demand on the step there, and leaves the
steps as they are when the step has neither target nor demand, or sets the step to its target
plus the demand, in the runs that needs. -/
theorem reconcileAt_cases {book : RecipeBook} {steps steps' : List Step} {i : Nat} {P : Step}
    (h : reconcileAt book steps i = .ok steps') (hi : steps[i]? = some P) :
    ∃ D, demandFor steps book i P.product = .ok D ∧
      ((D = 0 ∧ P.target = 0 ∧ steps' = steps) ∨
        (¬ (D = 0 ∧ P.target = 0) ∧ ∃ q, Count.add? P.target D = .ok q ∧
          steps' = steps.set i { P with quantity := q, runs := runsFor q P.out })) := by
  unfold reconcileAt at h
  rw [hi] at h
  obtain ⟨D, hD, h⟩ := ok_of_bind h
  refine ⟨D, hD, ?_⟩
  split at h
  · rename_i hzero
    simp only [Bool.and_eq_true, beq_iff_eq] at hzero
    cases h
    exact .inl ⟨hzero.1, hzero.2, rfl⟩
  · rename_i hzero
    simp only [Bool.and_eq_true, beq_iff_eq] at hzero
    obtain ⟨q, hq, h⟩ := ok_of_bind h
    cases h
    exact .inr ⟨hzero, q, hq, rfl⟩

/-- A position whose step has neither target nor demand, or already makes its target plus the
demand in the runs that needs, is left as it is. -/
theorem reconcileAt_eq_self {book : RecipeBook} {steps : List Step} {i D : Nat} {P : Step}
    (hi : steps[i]? = some P) (hD : demandFor steps book i P.product = .ok D)
    (h : (D = 0 ∧ P.target = 0) ∨
      (Count.add? P.target D = .ok P.quantity ∧ P.runs = runsFor P.quantity P.out)) :
    reconcileAt book steps i = .ok steps := by
  unfold reconcileAt
  rw [hi]
  simp only [hD, bind, Except.bind]
  split
  · rfl
  · rename_i hzero
    rcases h with ⟨hD0, ht0⟩ | ⟨hq, hruns⟩
    · simp [hD0, ht0] at hzero
    · simp only [hq]
      rw [← hruns]
      obtain ⟨hlt, hP⟩ := List.getElem?_eq_some_iff.1 hi
      show Except.ok (steps.set i P) = _
      rw [← hP, List.set_getElem_self]

/-- With consumers first, the turn of each conversion step in a pass reads the demand that the
final steps put on it, and the step ends as that turn left it. -/
theorem foldlM_conversionOrder_turn {steps R : List Step} {book : RecipeBook} {i : Nat}
    {P : Step} (hfirst : ConsumersFirst steps book)
    (hfold : (conversionOrder steps).foldlM (reconcileAt book) steps = .ok R)
    (hi : steps[i]? = some P) (hconv : P.activity = .convert) :
    ∃ D, demandFor R book i P.product = .ok D ∧
      ((D = 0 ∧ P.target = 0 ∧ R[i]? = some P) ∨
        (¬ (D = 0 ∧ P.target = 0) ∧ ∃ q, Count.add? P.target D = .ok q ∧
          R[i]? = some { P with quantity := q, runs := runsFor q P.out })) := by
  obtain ⟨pre, post, hord, hipre, hipost, hafter⟩ := conversionOrder_split hi hconv
  -- a conversion visited after `P` comes no earlier, so it does not use `P`'s product
  have hlater : ∀ j ∈ post, ∀ c, steps[j]? = some c → ¬ Consumes book P.product c := by
    intro j hj c hc hcons
    obtain ⟨hconv', hle⟩ := hafter j hj c hc
    obtain ⟨r, hr, hm⟩ := uses_of_consumes hcons
    have hbelow := hfirst c (List.mem_of_getElem? hc) P (List.mem_of_getElem? hi) hconv' hconv r hr hm
    unfold KeyBelow at hbelow
    omega
  rw [hord] at hfold
  obtain ⟨mid, mid', hmid, hP, hR, hD⟩ := foldlM_reconcileAt_turn hfold hipre hipost hi hlater
  obtain ⟨D, hD', hcases⟩ := reconcileAt_cases hmid hP
  refine ⟨D, hD.trans hD', ?_⟩
  rcases hcases with ⟨hD0, ht0, rfl⟩ | ⟨hpos, q, hq, rfl⟩
  · exact .inl ⟨hD0, ht0, hR.trans hP⟩
  · refine .inr ⟨hpos, q, hq, ?_⟩
    rw [hR, List.getElem?_set_self (List.getElem?_eq_some_iff.1 hP).1]

theorem foldlM_reconcileAt_fixed {book : RecipeBook} {R : List Step} :
    ∀ l : List Nat, (∀ i ∈ l, reconcileAt book R i = .ok R) →
      l.foldlM (reconcileAt book) R = .ok R
  | [], _ => rfl
  | i :: l, h => by
    rw [List.foldlM_cons, h i List.mem_cons_self]
    exact foldlM_reconcileAt_fixed l fun j hj => h j (List.mem_cons_of_mem _ hj)

theorem reconcile_eq_of_checkCycles {steps : List Step} {book : RecipeBook}
    (h : checkCycles steps book = .ok ()) :
    reconcile steps book =
      Outcome.ofFault ((conversionOrder steps).foldlM (reconcileAt book) steps) := by
  unfold reconcile
  rw [h]
  rfl

/-! ## The demand on a conversion -/

/-- Units of `m` that step `c` uses: what its recipe needs of `m` for its runs, with its
efficiency and bonus, and nothing when the book has no recipe for it or the recipe does not
use `m`. -/
def unitsUsed (book : RecipeBook) (m : Nat) (c : Step) : Except Fault Nat :=
  match book.get? c.key with
  | none => pure 0
  | some r => do
    match ← r.inputQuantity m with
    | none => pure 0
    | some base => requiredQuantity base c.runs c.activity c.me c.matBonus

/-- Whether a step, with its position, counts toward the demand on the step at `i`: it is
another step, neither copied nor bought. -/
def countsToward (i : Nat) (ci : Step × Nat) : Bool :=
  ci.2 != i && !ci.1.isCopy && !ci.1.purchased

/-- The demand on `m` of the steps other than the one at `i`: the units of it that every
step neither copied nor bought uses, added up. -/
def demandOn (book : RecipeBook) (steps : List Step) (i m : Nat) : Except Fault Nat :=
  ((steps.zipIdx.filter (countsToward i)).mapM (fun ci => unitsUsed book m ci.1)).map List.sum

theorem demandStep_units {book : RecipeBook} {m a a' : Nat} {c : Step}
    (hplain : (c.isCopy || c.purchased) = false) (h : demandStep book m a c = .ok a') :
    ∃ x, unitsUsed book m c = .ok x ∧ a' = a + x := by
  unfold demandStep at h
  rw [if_neg (by simp [hplain])] at h
  unfold unitsUsed
  cases hr : book.get? c.key with
  | none =>
    rw [hr] at h
    cases h
    exact ⟨0, rfl, rfl⟩
  | some r =>
    rw [hr] at h
    obtain ⟨q, hq, h⟩ := ok_of_bind h
    simp only [hq, bind, Except.bind]
    cases q with
    | none =>
      cases h
      exact ⟨0, rfl, rfl⟩
    | some base =>
      obtain ⟨x, hx, h⟩ := ok_of_bind h
      exact ⟨x, hx, Count.eq_of_add?_ok h⟩

/-- The fold that adds up a demand, from `a`, ends at `a` plus the units used by the steps it
counts. -/
theorem foldlM_demandStep_sum {book : RecipeBook} {i m : Nat} :
    ∀ (l : List (Step × Nat)) (a D : Nat),
      l.foldlM (fun acc (ci : Step × Nat) =>
        if ci.2 = i then pure acc else demandStep book m acc ci.1) a = .ok D →
      ∃ ds, (l.filter (countsToward i)).mapM (fun ci => unitsUsed book m ci.1) = .ok ds ∧
        a + ds.sum = D
  | [], a, D, h => by
    cases h
    exact ⟨[], rfl, rfl⟩
  | (c, j) :: l, a, D, h => by
    rw [List.foldlM_cons] at h
    obtain ⟨a', ha', h⟩ := ok_of_bind h
    by_cases hj : j = i
    · rw [if_pos hj] at ha'
      cases ha'
      rw [List.filter_cons_of_neg (by simp [countsToward, hj])]
      exact foldlM_demandStep_sum l a D h
    · rw [if_neg hj] at ha'
      cases hplain : (c.isCopy || c.purchased) with
      | true =>
        unfold demandStep at ha'
        rw [if_pos hplain] at ha'
        cases ha'
        have hskip : ¬ countsToward i (c, j) = true := by
          simp only [Bool.or_eq_true] at hplain
          rcases hplain with h' | h' <;> simp [countsToward, h']
        rw [List.filter_cons_of_neg hskip]
        exact foldlM_demandStep_sum l a D h
      | false =>
        obtain ⟨x, hx, rfl⟩ := demandStep_units hplain ha'
        obtain ⟨ds, hds, hsum⟩ := foldlM_demandStep_sum l (a + x) D h
        have hkeep : countsToward i (c, j) = true := by
          simp only [Bool.or_eq_false_iff] at hplain
          simp [countsToward, hj, hplain.1, hplain.2]
        rw [List.filter_cons_of_pos hkeep, List.mapM_cons, hx]
        simp only [bind, Except.bind, hds, pure, Except.pure]
        refine ⟨x :: ds, rfl, ?_⟩
        rw [List.sum_cons]
        omega

/-- The demand that reconciling reads is the units used by the other steps, added up. -/
theorem demandOn_of_demandFor {steps : List Step} {book : RecipeBook} {i m D : Nat}
    (h : demandFor steps book i m = .ok D) : demandOn book steps i m = .ok D := by
  rw [demandFor_eq] at h
  obtain ⟨ds, hds, hsum⟩ := foldlM_demandStep_sum _ 0 D h
  unfold demandOn
  rw [hds]
  simp only [Except.map, Nat.zero_add] at hsum ⊢
  rw [hsum]

/-! ## The settled steps -/

/-- What reconciling leaves of `steps`: the same steps in the same places, apart from
quantities and runs; every step but a conversion as it was; and every conversion step making
its target plus the demand that the final steps put on its product, in the runs that quantity
needs, unless it has neither target nor demand, in which case it is as it was. -/
structure Settled (book : RecipeBook) (steps R : List Step) : Prop where
  length_eq : R.length = steps.length
  shapes : ∀ j : Nat, R[j]?.map shape = steps[j]?.map shape
  plain : ∀ (j : Nat) (P : Step), R[j]? = some P → P.activity ≠ .convert → steps[j]? = some P
  balanced : ∀ (j : Nat) (P : Step), R[j]? = some P → P.activity = .convert →
    ∃ D, demandOn book R j P.product = .ok D ∧
      (0 < P.target ∨ 0 < D → P.quantity = P.target + D ∧ P.runs = runsFor P.quantity P.out) ∧
      (P.target = 0 → D = 0 → steps[j]? = some P)

/-- A pass over the conversion order, with consumers first, settles the steps. -/
theorem settled_of_fold {steps R : List Step} {book : RecipeBook}
    (hfirst : ConsumersFirst steps book)
    (hfold : (conversionOrder steps).foldlM (reconcileAt book) steps = .ok R) :
    Settled book steps R := by
  obtain ⟨hlen, hshape, hkeep⟩ := foldlM_reconcileAt_frame hfold
  obtain ⟨-, hmem, -⟩ := conversionOrder_spec steps
  refine ⟨hlen, hshape, fun j P hP hconv => ?_, fun j P' hP' hconv => ?_⟩
  · rw [← hP]
    refine (hkeep j fun hj => ?_).symm
    obtain ⟨c, hc, hcconv⟩ := (hmem j).1 hj
    obtain ⟨c₀, hc₀, hsh⟩ := exists_of_shape hshape hP
    rw [hc] at hc₀
    cases hc₀
    exact hconv ((shape_congr hsh activity fun _ => rfl).symm.trans hcconv)
  · obtain ⟨P, hP, hsh⟩ := exists_of_shape hshape hP'
    have hPconv : P.activity = .convert := (shape_congr hsh activity fun _ => rfl).trans hconv
    have hprod : P.product = P'.product := shape_congr hsh product fun _ => rfl
    obtain ⟨D, hD, hcases⟩ := foldlM_conversionOrder_turn hfirst hfold hP hPconv
    refine ⟨D, hprod ▸ demandOn_of_demandFor hD, ?_⟩
    rcases hcases with ⟨hD0, ht0, hR⟩ | ⟨hpos, q, hq, hR⟩
    · rw [hP'] at hR
      obtain rfl := Option.some.inj hR
      exact ⟨fun h => by omega, fun _ _ => hP⟩
    · rw [hP'] at hR
      obtain rfl := Option.some.inj hR
      exact ⟨fun _ => ⟨Count.eq_of_add?_ok hq, rfl⟩, fun ht hd => absurd ⟨hd, ht⟩ hpos⟩

theorem reconcile_settles {steps : List Step} {book : RecipeBook}
    (hfirst : ConsumersFirst steps book) :
    (∀ e, reconcile steps book ≠ .error (.rejected e)) ∧
      ∀ R, reconcile steps book = .ok R → Settled book steps R ∧ reconcile R book = .ok R := by
  have hrun := reconcile_eq_of_checkCycles (checkCycles_ok hfirst)
  refine ⟨fun e h => ?_, fun R hR => ?_⟩
  · rw [hrun] at h
    cases hx : (conversionOrder steps).foldlM (reconcileAt book) steps with
    | ok R => rw [hx] at h; cases h
    | error f => rw [hx] at h; cases h
  · have hfold := ok_of_ofFault (hrun.symm.trans hR)
    have hsettled := settled_of_fold hfirst hfold
    refine ⟨hsettled, ?_⟩
    rw [reconcile_eq_of_checkCycles (checkCycles_ok (hfirst.of_shapes (reconcile_source hR))),
      foldlM_reconcileAt_fixed _ fun i hi => ?_]
    · rfl
    · obtain ⟨P', hP', hconv⟩ := ((conversionOrder_spec R).2.1 i).1 hi
      obtain ⟨P, hP, hsh⟩ := exists_of_shape hsettled.shapes hP'
      obtain ⟨D, hD, hcases⟩ := foldlM_conversionOrder_turn hfirst hfold hP
        ((shape_congr hsh activity fun _ => rfl).trans hconv)
      rcases hcases with ⟨hD0, ht0, hR'⟩ | ⟨-, q, hq, hR'⟩
      · rw [hP'] at hR'
        obtain rfl := Option.some.inj hR'
        exact reconcileAt_eq_self hP' hD (.inl ⟨hD0, ht0⟩)
      · rw [hP'] at hR'
        obtain rfl := Option.some.inj hR'
        exact reconcileAt_eq_self hP' hD (.inr ⟨hq, rfl⟩)

/-- Two conversions in a chain under a build: the build uses 15 of the first conversion's
product a run, and the first conversion 100 of the second's. -/
def chainBook : RecipeBook := ⟨[
  { id := 1000, activity := .build, inputs := [⟨600, 15⟩], outputs := [⟨500, 1⟩],
    baseDuration := 600 },
  { id := 2000, activity := .convert, inputs := [⟨700, 100⟩], outputs := [⟨600, 200⟩],
    baseDuration := 10800 },
  { id := 2100, activity := .convert, inputs := [⟨16634, 50⟩], outputs := [⟨700, 100⟩],
    baseDuration := 10800 }]⟩

/-- The chain with out-of-date conversion quantities, the deeper conversion first. -/
def chainSteps : List Step := [
  { id := .given 1, recipe := 2100, activity := .convert, product := 700, depth := 2,
    quantity := 300, runs := 3, out := 100 },
  { id := .given 2, recipe := 1000, product := 500, quantity := 10, runs := 10 },
  { id := .given 3, recipe := 2000, activity := .convert, product := 600, depth := 1,
    quantity := 500, runs := 3, out := 200 }]

theorem reconcile_settles_chain :
    ConsumersFirst chainSteps chainBook ∧
      ∃ R, reconcile chainSteps chainBook = .ok R ∧ Settled chainBook chainSteps R ∧
        reconcile R chainBook = .ok R := by
  have hfirst : ConsumersFirst chainSteps chainBook := by decide
  obtain ⟨R, hR⟩ : ∃ R, reconcile chainSteps chainBook = .ok R := ⟨_, rfl⟩
  exact ⟨hfirst, R, hR, (reconcile_settles hfirst).2 R hR⟩

/-- Recipes of a conversion that uses its own product. -/
def selfFedBook : RecipeBook := ⟨[
  { id := 1, activity := .convert, inputs := [⟨1, 1⟩], outputs := [⟨1, 1⟩], baseDuration := 0 }]⟩

/-- A conversion whose recipe uses its own product. -/
def selfFed : Step := { id := .given 1, recipe := 1, activity := .convert, product := 1 }

/-- A conversion and two builds that each use one of its product a run. -/
def overdrawnBook : RecipeBook := ⟨[
  { id := 2, activity := .convert, inputs := [], outputs := [⟨2, 1⟩], baseDuration := 0 },
  { id := 1, activity := .build, inputs := [⟨2, 1⟩], outputs := [⟨1, 1⟩], baseDuration := 0 }]⟩

/-- The conversion under two builds of `2 ^ 63` runs each. -/
def overdrawn : List Step := [
  { id := .given 1, recipe := 2, activity := .convert, product := 2, depth := 1 },
  { id := .given 2, recipe := 1, product := 1, runs := 9223372036854775808 },
  { id := .given 3, recipe := 1, product := 1, runs := 9223372036854775808 }]

/-- Reconciling fails even where no conversion uses the product of another that comes before
it: a conversion that uses its own product is a cycle, and a demand past the largest count
breaks reconciling down. -/
theorem reconcile_fails_ordered :
    reconcile [selfFed] selfFedBook = .error (.rejected (.cycleDetected [1])) ∧
      reconcile overdrawn overdrawnBook = .error (.fault .countAddOverflow) :=
  ⟨rfl, rfl⟩

end Step

end Fabrication
