import Fabrication.Proofs.Outcome
import Fabrication.Proofs.Table
import Fabrication.Step.Reconcile
import Mathlib.Data.List.Nodup

/-!
# What reconciling conversion steps achieves

Reconciling sets each conversion step to its target plus the demand that the other steps
put on its product, taken in order of depth. A step's demand reads only the steps that use
the product, and reconciling changes nothing of a step but its quantity and runs (its
`shape` stays). So when every conversion step that uses a conversion's product is shallower
than the conversion, the consumers are final by the time the conversion is reconciled, and
nothing reconciled after it changes its demand: the conversion ends with at least its target
plus the demand of the reconciled steps (`reconcile_covers`).
-/

namespace Fabrication

namespace Step

/-- A step without its quantity and runs, the two things reconciling changes. -/
def shape (s : Step) : Step := { s with quantity := 0, runs := 0 }

/-- Steps of one shape agree on everything their shape determines. -/
theorem shape_congr {α : Type} {s t : Step} (h : shape s = shape t) (f : Step → α)
    (hf : ∀ u, f (shape u) = f u) : f s = f t := by
  rw [← hf s, h, hf t]

/-- Where two lists agree in shape position by position, a step of one has a partner of its
shape in the other. -/
theorem exists_of_shape {steps steps' : List Step}
    (hshape : ∀ j : Nat, steps'[j]?.map shape = steps[j]?.map shape) {j : Nat} {s : Step}
    (hs : steps'[j]? = some s) : ∃ s₀, steps[j]? = some s₀ ∧ shape s₀ = shape s := by
  have h := hshape j
  rw [hs] at h
  cases h₀ : steps[j]? with
  | none => rw [h₀] at h; cases h
  | some s₀ => rw [h₀] at h; exact ⟨s₀, rfl, (Option.some.inj h).symm⟩

/-- What one step adds to the demand for `product`. -/
def demandStep (book : RecipeBook) (product acc : Nat) (c : Step) : Except Fault Nat :=
  if c.isCopy || c.purchased then pure acc
  else
    match book.get? c.key with
    | none => pure acc
    | some r => do
      match ← r.inputQuantity product with
      | none => pure acc
      | some base => Count.add? acc (← requiredQuantity base c.runs c.activity c.me c.matBonus)

/-- A step that adds to the demand for `product`: neither a copy nor bought, with a recipe in
the book that uses `product`. -/
def Consumes (book : RecipeBook) (product : Nat) (c : Step) : Prop :=
  c.isCopy = false ∧ c.purchased = false ∧
    ∃ r, book.get? c.key = some r ∧ r.inputQuantity product ≠ .ok none

theorem consumes_of_shape {book : RecipeBook} {product : Nat} {c c' : Step}
    (h : shape c = shape c') (hc : Consumes book product c) : Consumes book product c' := by
  have hkey : c.key = c'.key := shape_congr h key fun _ => rfl
  have hcopy : c.isCopy = c'.isCopy := shape_congr h isCopy fun _ => rfl
  have hbought : c.purchased = c'.purchased := shape_congr h purchased fun _ => rfl
  obtain ⟨h1, h2, r, hr, hq⟩ := hc
  exact ⟨hcopy ▸ h1, hbought ▸ h2, r, hkey ▸ hr, hq⟩

theorem demandStep_of_not_consumes {book : RecipeBook} {product acc : Nat} {c : Step}
    (h : ¬ Consumes book product c) : demandStep book product acc c = pure acc := by
  unfold demandStep
  split
  · rfl
  · rename_i hplain
    simp only [Bool.or_eq_true, not_or, Bool.not_eq_true] at hplain
    split
    · rfl
    · rename_i r hr
      cases hq : r.inputQuantity product with
      | error e => exact absurd ⟨hplain.1, hplain.2, r, hr, by simp [hq]⟩ h
      | ok q =>
        cases q with
        | none => rfl
        | some base => exact absurd ⟨hplain.1, hplain.2, r, hr, by simp [hq]⟩ h

/-- The demand on the step at `producer` is the fold of `demandStep` over the other steps. -/
theorem demandFor_eq (steps : List Step) (book : RecipeBook) (producer product : Nat) :
    demandFor steps book producer product = steps.zipIdx.foldlM (fun acc (ci : Step × Nat) =>
      if ci.2 = producer then pure acc else demandStep book product acc ci.1) 0 := by
  unfold demandFor
  congr 1
  funext acc ci
  obtain ⟨c, i⟩ := ci
  by_cases hi : i = producer
  · simp [hi]
  · have hne : (i == producer) = false := by simpa using hi
    rw [if_neg hi]
    simp only [hne, Bool.false_or]
    rfl

/-- Two lists of steps that read the same at every position but the producer's put the same
demand on the producer. -/
theorem demandFor_congr {book : RecipeBook} {producer product : Nat} {steps steps' : List Step}
    (hlen : steps'.length = steps.length)
    (h : ∀ j, j ≠ producer → ∀ c c', steps[j]? = some c → steps'[j]? = some c' →
      ∀ a, demandStep book product a c = demandStep book product a c') :
    demandFor steps' book producer product = demandFor steps book producer product := by
  rw [demandFor_eq, demandFor_eq]
  -- positions are counted from an offset `k` along both lists at once
  suffices hk : ∀ (l l' : List Step) (k acc : Nat), l'.length = l.length →
      (∀ j, j + k ≠ producer → ∀ c c', l[j]? = some c → l'[j]? = some c' →
        ∀ a, demandStep book product a c = demandStep book product a c') →
      (l'.zipIdx k).foldlM (fun acc (ci : Step × Nat) =>
          if ci.2 = producer then pure acc else demandStep book product acc ci.1) acc =
        (l.zipIdx k).foldlM (fun acc (ci : Step × Nat) =>
          if ci.2 = producer then pure acc else demandStep book product acc ci.1) acc from
    hk steps steps' 0 0 hlen (by simpa using h)
  intro l
  induction l with
  | nil =>
    intro l' k acc hlen _
    rw [List.length_nil, List.length_eq_zero_iff] at hlen
    subst hlen
    rfl
  | cons c l ih =>
    intro l' k acc hlen hsame
    cases l' with
    | nil => cases hlen
    | cons c' l' =>
      simp only [List.zipIdx_cons, List.foldlM_cons]
      have hhead : (if k = producer then pure acc else demandStep book product acc c') =
          (if k = producer then pure acc else demandStep book product acc c : Except Fault Nat) := by
        split
        · rfl
        · rename_i hk
          exact (hsame 0 (by simpa using hk) c c' rfl rfl acc).symm
      rw [hhead]
      congr 1
      funext a
      exact ih l' (k + 1) a (by simpa using hlen) fun j hj d d' (hd : l[j]? = some d)
        (hd' : l'[j]? = some d') =>
        hsame (j + 1) (by omega) d d' (by simpa using hd) (by simpa using hd')

/-- Reconciling one position: every step keeps its shape, and only the step at that position
may change. -/
theorem reconcileAt_frame {book : RecipeBook} {steps steps' : List Step} {i : Nat}
    (h : reconcileAt book steps i = .ok steps') :
    steps'.length = steps.length ∧ (∀ j : Nat, steps'[j]?.map shape = steps[j]?.map shape) ∧
      ∀ j : Nat, j ≠ i → steps'[j]? = steps[j]? := by
  unfold reconcileAt at h
  split at h
  · cases h; exact ⟨rfl, fun _ => rfl, fun _ _ => rfl⟩
  · rename_i s hs
    obtain ⟨D, -, h⟩ := ok_of_bind h
    split at h
    · cases h; exact ⟨rfl, fun _ => rfl, fun _ _ => rfl⟩
    · obtain ⟨q, -, h⟩ := ok_of_bind h
      cases h
      refine ⟨List.length_set, fun j => ?_, fun j hj => List.getElem?_set_ne (Ne.symm hj)⟩
      rw [List.getElem?_set]
      split
      · rename_i hij
        subst hij
        split
        · rw [hs]; rfl
        · rename_i hlt
          rw [List.getElem?_eq_none (by omega)]
      · rfl

/-- Reconciling the position of a step sets it to at least its target plus the demand on it. -/
theorem reconcileAt_self {book : RecipeBook} {steps steps' : List Step} {i : Nat} {s : Step}
    (h : reconcileAt book steps i = .ok steps') (hs : steps[i]? = some s) :
    ∃ D s', demandFor steps book i s.product = .ok D ∧ steps'[i]? = some s' ∧
      shape s' = shape s ∧ s.target + D ≤ s'.quantity := by
  unfold reconcileAt at h
  rw [hs] at h
  obtain ⟨D, hD, h⟩ := ok_of_bind h
  split at h
  · rename_i hzero
    cases h
    simp only [Bool.and_eq_true, beq_iff_eq] at hzero
    exact ⟨D, s, hD, hs, rfl, by omega⟩
  · obtain ⟨q, hq, h⟩ := ok_of_bind h
    cases h
    refine ⟨D, _, hD, List.getElem?_set_self (List.getElem?_eq_some_iff.1 hs).1, rfl, ?_⟩
    exact Nat.le_of_eq (Count.eq_of_add?_ok hq).symm

theorem foldlM_reconcileAt_frame {book : RecipeBook} {l : List Nat} {steps steps' : List Step}
    (h : l.foldlM (reconcileAt book) steps = .ok steps') :
    steps'.length = steps.length ∧ (∀ j : Nat, steps'[j]?.map shape = steps[j]?.map shape) ∧
      ∀ j : Nat, j ∉ l → steps'[j]? = steps[j]? := by
  induction l generalizing steps with
  | nil => cases h; exact ⟨rfl, fun _ => rfl, fun _ _ => rfl⟩
  | cons i l ih =>
    rw [List.foldlM_cons] at h
    obtain ⟨mid, hmid, h⟩ := ok_of_bind h
    obtain ⟨hlen₁, hshape₁, hkeep₁⟩ := reconcileAt_frame hmid
    obtain ⟨hlen₂, hshape₂, hkeep₂⟩ := ih h
    refine ⟨hlen₂.trans hlen₁, fun j => (hshape₂ j).trans (hshape₁ j), fun j hj => ?_⟩
    rw [List.mem_cons, not_or] at hj
    exact (hkeep₂ j hj.2).trans (hkeep₁ j hj.1)

/-- Reconciling changes no step but in its quantity and runs. -/
theorem reconcile_frame {book : RecipeBook} {steps steps' : List Step}
    (h : reconcile steps book = .ok steps') :
    steps'.length = steps.length ∧ ∀ j : Nat, steps'[j]?.map shape = steps[j]?.map shape := by
  unfold reconcile at h
  obtain ⟨-, -, h⟩ := ok_of_bind h
  obtain ⟨hlen, hshape, -⟩ := foldlM_reconcileAt_frame (ok_of_ofFault h)
  exact ⟨hlen, hshape⟩

/-- Every reconciled step has the shape of a step it was reconciled from. -/
theorem reconcile_source {book : RecipeBook} {steps steps' : List Step}
    (h : reconcile steps book = .ok steps') : ∀ s ∈ steps', ∃ s₀ ∈ steps, shape s₀ = shape s := by
  intro s hs
  obtain ⟨j, hj⟩ := List.mem_iff_getElem?.1 hs
  obtain ⟨s₀, hs₀, hsh⟩ := exists_of_shape (reconcile_frame h).2 hj
  exact ⟨s₀, List.mem_of_getElem? hs₀, hsh⟩

/-- The conversion order visits shallower steps first, and steps of one depth by recipe id. -/
theorem conversionOrder_sorted (steps : List Step) :
    (conversionOrder steps).Pairwise (fun j j' => ∀ c c', steps[j]? = some c →
      steps[j']? = some c' → c.depth < c'.depth ∨ (c.depth = c'.depth ∧ c.recipe ≤ c'.recipe)) := by
  unfold conversionOrder
  dsimp only
  set le := fun (a b : Step × Nat) => a.1.depth < b.1.depth ||
    (a.1.depth == b.1.depth && a.1.recipe ≤ b.1.recipe) with hle
  set conv := steps.zipIdx.filter (·.1.activity == .convert)
  have hsorted : (sortBy le conv).Pairwise (le · ·) :=
    sortBy_pairwise (fun a b => by simp only [hle]; grind)
      (fun a b c => by simp only [hle]; grind) conv
  rw [List.pairwise_map]
  refine hsorted.imp_of_mem fun {a b} ha hb hab c c' hc hc' => ?_
  have ha' : steps[a.2]? = some a.1 :=
    List.mem_zipIdx_iff_getElem?.1 (List.mem_filter.1 ((mem_sortBy _).1 ha)).1
  have hb' : steps[b.2]? = some b.1 :=
    List.mem_zipIdx_iff_getElem?.1 (List.mem_filter.1 ((mem_sortBy _).1 hb)).1
  rw [ha'] at hc
  rw [hb'] at hc'
  cases hc
  cases hc'
  simp only [hle, Bool.or_eq_true, Bool.and_eq_true, decide_eq_true_eq, beq_iff_eq] at hab
  omega

/-- The conversion order visits each conversion step once, shallower steps first. -/
theorem conversionOrder_spec (steps : List Step) :
    (conversionOrder steps).Nodup ∧
      (∀ j : Nat, j ∈ conversionOrder steps ↔ ∃ c, steps[j]? = some c ∧ c.activity = .convert) ∧
      (conversionOrder steps).Pairwise (fun j j' => ∀ c c', steps[j]? = some c →
        steps[j']? = some c' → c.depth ≤ c'.depth) := by
  refine ⟨?_, fun j => ?_, (conversionOrder_sorted steps).imp fun h c c' hc hc' => ?_⟩
  · unfold conversionOrder
    dsimp only
    rw [((sortBy_perm _ _).map _).nodup_iff]
    have hsub : ((steps.zipIdx.filter (·.1.activity == .convert)).map (·.2)).Sublist
        (steps.zipIdx.map (·.2)) := List.filter_sublist.map _
    exact hsub.nodup (by simpa using List.nodup_range' (s := 0) (n := steps.length))
  · simp only [conversionOrder, List.mem_map, mem_sortBy, List.mem_filter, beq_iff_eq]
    constructor
    · rintro ⟨⟨c, j'⟩, ⟨hmem, hconv⟩, rfl⟩
      exact ⟨c, List.mk_mem_zipIdx_iff_getElem?.1 hmem, hconv⟩
    · rintro ⟨c, hc, hconv⟩
      exact ⟨(c, j), ⟨List.mk_mem_zipIdx_iff_getElem?.2 hc, hconv⟩, rfl⟩
  · have := h c c' hc hc'
    omega

/-- The conversion order around a conversion step: the positions visited before it and after it,
the latter all conversions that come no earlier in depth and recipe id. -/
theorem conversionOrder_split {steps : List Step} {i : Nat} {P : Step} (hi : steps[i]? = some P)
    (hconv : P.activity = .convert) :
    ∃ pre post, conversionOrder steps = pre ++ i :: post ∧ i ∉ pre ∧ i ∉ post ∧
      ∀ j ∈ post, ∀ c, steps[j]? = some c → c.activity = .convert ∧
        (P.depth < c.depth ∨ (P.depth = c.depth ∧ P.recipe ≤ c.recipe)) := by
  obtain ⟨hnodup, hmem, -⟩ := conversionOrder_spec steps
  have hsorted := conversionOrder_sorted steps
  obtain ⟨pre, post, hord⟩ := List.append_of_mem ((hmem i).2 ⟨P, hi, hconv⟩)
  rw [hord] at hnodup hsorted
  refine ⟨pre, post, hord, fun h => (List.nodup_append.1 hnodup).2.2 i h i (by simp) rfl,
    (List.nodup_cons.1 (List.nodup_append.1 hnodup).2.1).1, fun j hj c hc => ⟨?_, ?_⟩⟩
  · obtain ⟨c', hc', hconv'⟩ := (hmem j).1 (by rw [hord]; simp [hj])
    rw [hc] at hc'
    cases hc'
    exact hconv'
  · exact (List.pairwise_cons.1 (List.pairwise_append.1 hsorted).2.1).1 j hj P c hi hc

/-- The turn of one position in a pass of reconciling: the steps it is reconciled from and
what it ends as. When no position visited after it consumes its product, the demand on it at
its turn is the demand that the final steps put on it. -/
theorem foldlM_reconcileAt_turn {book : RecipeBook} {pre post : List Nat} {i : Nat} {P : Step}
    {steps R : List Step} (h : (pre ++ i :: post).foldlM (reconcileAt book) steps = .ok R)
    (hipre : i ∉ pre) (hipost : i ∉ post) (hi : steps[i]? = some P)
    (hlater : ∀ j ∈ post, ∀ c, steps[j]? = some c → ¬ Consumes book P.product c) :
    ∃ mid mid', reconcileAt book mid i = .ok mid' ∧ mid[i]? = some P ∧ R[i]? = mid'[i]? ∧
      demandFor R book i P.product = demandFor mid book i P.product := by
  rw [List.foldlM_append] at h
  obtain ⟨sa, hsa, h⟩ := ok_of_bind h
  rw [List.foldlM_cons] at h
  obtain ⟨sb, hsb, hsc⟩ := ok_of_bind h
  obtain ⟨-, hshapea, hkeepa⟩ := foldlM_reconcileAt_frame hsa
  obtain ⟨hlenb, -, hkeepb⟩ := reconcileAt_frame hsb
  obtain ⟨hlenc, hshapec, hkeepc⟩ := foldlM_reconcileAt_frame hsc
  refine ⟨sa, sb, hsb, (hkeepa i hipre).trans hi, hkeepc i hipost, ?_⟩
  -- the steps after `i` change only non-consumers, and the one at `i` does not count
  refine demandFor_congr (hlenc.trans hlenb) fun j hj c c' hc hc' a => ?_
  by_cases hjpost : j ∈ post
  · obtain ⟨c₀, hc₀⟩ : ∃ c₀, steps[j]? = some c₀ := by
      have := hshapea j
      rw [hc] at this
      cases h₀ : steps[j]? with
      | none => rw [h₀] at this; cases this
      | some c₀ => exact ⟨c₀, rfl⟩
    have hsha : shape c = shape c₀ := by
      have := hshapea j
      rw [hc, hc₀] at this
      exact Option.some.inj this
    have hshc : shape c' = shape c₀ := by
      have h₁ := hshapec j
      rw [hc', hkeepb j hj, hc] at h₁
      exact (Option.some.inj h₁).trans hsha
    have hnot := hlater j hjpost c₀ hc₀
    rw [demandStep_of_not_consumes fun hcons => hnot (consumes_of_shape hsha hcons),
      demandStep_of_not_consumes fun hcons => hnot (consumes_of_shape hshc hcons)]
  · rw [hkeepc j hjpost, hkeepb j hj, hc] at hc'
    cases hc'
    rfl

/-- A conversion step that every conversion consumer of its product lies above ends with at
least its target plus the demand on it. -/
theorem reconcile_covers {steps steps' : List Step} {book : RecipeBook} {i : Nat} {P : Step}
    (h : reconcile steps book = .ok steps') (hi : steps[i]? = some P)
    (hconv : P.activity = .convert)
    (hdeep : ∀ (j : Nat) c, steps[j]? = some c → c.activity = .convert → Consumes book P.product c →
      c.depth < P.depth) :
    ∃ D P', demandFor steps' book i P.product = .ok D ∧ steps'[i]? = some P' ∧
      shape P' = shape P ∧ P.target + D ≤ P'.quantity := by
  unfold reconcile at h
  obtain ⟨-, -, h⟩ := ok_of_bind h
  obtain ⟨pre, post, hord, hipre, hipost, hafter⟩ := conversionOrder_split hi hconv
  have hlater : ∀ j ∈ post, ∀ c, steps[j]? = some c → ¬ Consumes book P.product c := by
    intro j hj c hc hcons
    obtain ⟨hconv', hle⟩ := hafter j hj c hc
    have := hdeep j c hc hconv' hcons
    omega
  rw [hord] at h
  obtain ⟨mid, mid', hmid, hP, hR, hD⟩ :=
    foldlM_reconcileAt_turn (ok_of_ofFault h) hipre hipost hi hlater
  obtain ⟨D, P', hD', hP', hshape, hcover⟩ := reconcileAt_self hmid hP
  exact ⟨D, P', hD.trans hD', hR.trans hP', hshape, hcover⟩

end Step

end Fabrication
