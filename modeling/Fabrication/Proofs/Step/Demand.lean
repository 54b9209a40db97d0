import Mathlib
import Fabrication.Proofs.Step.Logical
import Fabrication.Proofs.Step.Reassign

/-!
# Demand between logical steps

What a recalculation owes a logical step, and what one round of it does. A logical step that
is not pinned and has a target or a consumer is `Active`; its consumers are the other logical
steps whose recipe takes its product as an input, and each of them needs of that product what
`inputNeed` says for its runs. `Logical.Settled` says a logical step got exactly that: an active
one makes its target and its consumers' needs, in the runs for that quantity; any other keeps its
counts.

One round (`recalculateLogical`) first reassigns the logical step from the demand it has received
(`reassignLogical_spec`), then passes on to the owner of each input material what its runs need
(`passOn_spec`). When consumers come strictly before what they draw on, the consumers of a
logical step are all among those recalculated before it (`consumersIn_take_self`), and when each
material has one maker, a logical step passes on to another exactly the need of that one's
product (`inputsTo_ownerOf`).
-/

namespace Fabrication

open Step

namespace Logical

/-- The sum of a count over the members of a logical step, in `steps`. -/
def sumOf (l : Logical) (steps : List Step) (f : Step → Nat) : Nat := sumAt steps l.members f

variable (steps : List Step) (book : RecipeBook)

/-- Whether a member of a logical step is pinned. -/
def isPinned (pinned : List Ident) (l : Logical) : Bool :=
  l.members.any fun m => pinned.contains (stepAt steps m).id

/-- The recipe by which a logical step draws on its inputs: that of its first member in the
book, unless the step is bought. -/
def inputRecipe (l : Logical) : Option Recipe :=
  if (l.head steps).purchased then none else book.get? (l.head steps).key

/-- Whether logical step `c` draws on the product of logical step `l`. -/
def consumes (c l : Logical) : Bool :=
  match c.inputRecipe steps book with
  | some r => r.inputs.any (·.material == (l.head steps).product)
  | none => false

/-- What logical step `c` needs of material `m` for `runs` runs. -/
def needFor (c : Logical) (runs m : Nat) : Except Fault Nat :=
  match c.inputRecipe steps book with
  | some r => inputNeed r (c.head steps) runs m
  | none => pure 0

/-- The consumers of logical step `l` among `cs`: the others that draw on its product. -/
def consumersIn (cs : List Logical) (l : Logical) : List Logical :=
  cs.filter fun c => c != l && c.consumes steps book l

/-- The consumers of a logical step among all logical steps. -/
def consumers (l : Logical) : List Logical := consumersIn steps book (logicalSteps steps) l

/-- What consumers `cs` need of the product of `l` for their runs in `after`. -/
def needsOf (after : List Step) (cs : List Logical) (l : Logical) : Except Fault (List Nat) :=
  cs.mapM fun c => c.needFor steps book (c.sumOf after Step.runs) (l.head steps).product

/-- A logical step that recalculation sets: none of its members is pinned, and it has a target
or a consumer. -/
def Active (pinned : List Ident) (l : Logical) : Prop :=
  l.isPinned steps pinned = false ∧ (0 < l.sumOf steps Step.target ∨ l.consumers steps book ≠ [])

instance (pinned : List Ident) (l : Logical) : Decidable (l.Active steps book pinned) :=
  inferInstanceAs (Decidable (_ ∧ _))

/-- What recalculation leaves in logical step `l` of `steps` when the steps come out as
`after`: an active step makes its target and what its consumers need for their runs in `after`,
in the runs for that; any other keeps the runs and quantities of its members. -/
def Settled (pinned : List Ident) (after : List Step) (l : Logical) : Prop :=
  (l.Active steps book pinned →
    ∃ needs, l.needsOf steps book after (l.consumers steps book) = .ok needs ∧
      l.sumOf after Step.quantity = l.sumOf steps Step.target + needs.sum ∧
      l.sumOf after Step.runs = runsFor (l.sumOf after Step.quantity) (l.head steps).out) ∧
  (¬l.Active steps book pinned → ∀ m ∈ l.members,
    (stepAt after m).runs = (stepAt steps m).runs ∧
      (stepAt after m).quantity = (stepAt steps m).quantity)

/-- The materials whose need a logical step at `index` passes on to the logical step at `j`: the
input materials of its recipe that `j` owns, unless `j` is the step itself. -/
def inputsTo (owner : Nat → Option Nat) (index j : Nat) (l : Logical) : List Nat :=
  match l.inputRecipe steps book with
  | some r => r.inputMaterials.filter fun m => owner m == some j && j != index
  | none => []

section Congr

variable {S : List Step} {B : RecipeBook} {P : List Ident}

/-- The needs of consumers depend on their runs only. -/
theorem needsOf_congr {a b : List Step} {cs : List Logical} {l : Logical}
    (h : ∀ c ∈ cs, ∀ p ∈ c.members, (stepAt b p).runs = (stepAt a p).runs) :
    l.needsOf S B b cs = l.needsOf S B a cs := by
  unfold needsOf
  refine mapM_congr fun c hc => ?_
  rw [Logical.sumOf, Logical.sumOf, sumAt_congr (h c hc)]

/-- Whether a logical step is settled depends on the counts of its members and the runs of its
consumers only. -/
theorem Settled.congr {a b : List Step} {l : Logical} (hs : l.Settled S B P a)
    (hl : ∀ p ∈ l.members, (stepAt b p).runs = (stepAt a p).runs ∧
      (stepAt b p).quantity = (stepAt a p).quantity)
    (hc : ∀ c ∈ l.consumers S B, ∀ p ∈ c.members, (stepAt b p).runs = (stepAt a p).runs) :
    l.Settled S B P b := by
  have hruns : l.sumOf b Step.runs = l.sumOf a Step.runs := sumAt_congr fun p hp => (hl p hp).1
  have hqty : l.sumOf b Step.quantity = l.sumOf a Step.quantity :=
    sumAt_congr fun p hp => (hl p hp).2
  refine ⟨fun hact => ?_, fun hinact m hm => ?_⟩
  · obtain ⟨needs, hneeds, hq, hr⟩ := hs.1 hact
    exact ⟨needs, (needsOf_congr hc).trans hneeds, hqty ▸ hq, by rw [hruns, hqty, hr]⟩
  · obtain ⟨hr, hq⟩ := hs.2 hinact m hm
    exact ⟨(hl m hm).1.trans hr, (hl m hm).2.trans hq⟩

end Congr

end Logical

namespace Step

/-- Passing on what a step needs of its input materials: the demand of the logical step at `j`
grows by the needs of the materials it gets, when there are any; every other demand stays. -/
theorem foldlM_passDemand {owner : Nat → Option Nat} {index : Nat}
    {need : Nat → Except Fault Nat} {mats : List Nat} {dem dem' : List (Nat × Nat)}
    (h : mats.foldlM (passDemand owner index need) dem = .ok dem') (j : Nat) :
    ∃ vs, (mats.filter fun m => owner m == some j && j != index).mapM need = .ok vs ∧
      lastValue? dem' j = if mats.filter (fun m => owner m == some j && j != index) = [] then
        lastValue? dem j else some ((lastValue? dem j).getD 0 + vs.sum) := by
  induction mats generalizing dem with
  | nil =>
    cases h
    exact ⟨[], rfl, by simp⟩
  | cons m ms ih =>
    rw [List.foldlM_cons] at h
    obtain ⟨dem₁, hstep, h⟩ := ok_of_bind h
    obtain ⟨vs, hvs, hval⟩ := ih h
    have hstep' : ((∀ j, (owner m == some j && j != index) = false) ∧ dem₁ = dem) ∨
        ∃ child, owner m = some child ∧ child ≠ index ∧ ∃ v, need m = .ok v ∧
          dem₁ = putEntry child ((lastValue? dem child).getD 0 + v) dem := by
      unfold passDemand at hstep
      split at hstep
      · rename_i hown
        cases hstep
        exact .inl ⟨fun j => by simp [hown], rfl⟩
      · rename_i child hown
        split at hstep
        · rename_i hci
          cases hstep
          refine .inl ⟨fun j => ?_, rfl⟩
          by_cases hj : j = child
          · subst hj
            simpa [hown] using hci
          · simp [hown, Ne.symm hj]
        · rename_i hci
          obtain ⟨v, hv, hstep⟩ := ok_of_bind hstep
          unfold addDemand at hstep
          obtain ⟨total, htotal, hstep⟩ := ok_of_bind hstep
          cases hstep
          exact .inr ⟨child, hown, by simpa using hci, v, hv, by rw [Count.eq_of_add?_ok htotal]⟩
    rcases hstep' with ⟨hnone, rfl⟩ | ⟨child, hown, hci, v, hv, rfl⟩
    · simp only [List.filter_cons, hnone j, Bool.false_eq_true, if_false]
      exact ⟨vs, hvs, hval⟩
    · rw [lastValue?_putEntry] at hval
      by_cases hj : j = child
      · subst hj
        have hm : (owner m == some j && j != index) = true := by simp [hown, hci]
        simp only [List.filter_cons, hm, if_true] at hval ⊢
        refine ⟨v :: vs, by rw [List.mapM_cons, hv, hvs]; rfl, ?_⟩
        rw [hval]
        split
        · rename_i hnil
          rw [hnil] at hvs
          cases hvs
          simp
        · simp [Nat.add_assoc]
      · have hm : (owner m == some j && j != index) = false := by simp [hown, Ne.symm hj]
        simp only [List.filter_cons, hm, Bool.false_eq_true, if_false, if_neg hj] at hval ⊢
        exact ⟨vs, hvs, hval⟩

section Frame

variable {S st : List Step}

/-- What a step needs of its inputs depends on its activity, efficiency and bonus only. -/
theorem inputNeed_congr {a b : Step} (h : sansCounts a = sansCounts b) (r : Recipe) :
    inputNeed r a = inputNeed r b := by
  have hact : a.activity = b.activity := congrArg (·.activity) h
  have hme : a.me = b.me := congrArg (·.me) h
  have hbonus : a.matBonus = b.matBonus := congrArg (·.matBonus) h
  funext runs m
  unfold inputNeed
  rw [hact, hme, hbonus]

theorem inputRecipe_congr (hst : st.map sansCounts = S.map sansCounts) (book : RecipeBook)
    (l : Logical) : l.inputRecipe st book = l.inputRecipe S book := by
  have hhead := sansCounts_stepAt_of_map hst (l.members.headD 0)
  have hpurchased : (l.head st).purchased = (l.head S).purchased := congrArg (·.purchased) hhead
  have hkey : (l.head st).key = (l.head S).key := congrArg (·.key) hhead
  unfold Logical.inputRecipe
  rw [hpurchased, hkey]

theorem passOn_spec {book : RecipeBook} {owner : Nat → Option Nat} {dem dem' : List (Nat × Nat)}
    {l : Logical} {k : Nat} (h : passOn book owner st dem l k = .ok dem')
    (hst : st.map sansCounts = S.map sansCounts) (j : Nat) :
    ∃ vs, (l.inputsTo S book owner k j).mapM (l.needFor S book (l.sumOf st Step.runs)) = .ok vs ∧
      lastValue? dem' j = if l.inputsTo S book owner k j = [] then lastValue? dem j
        else some ((lastValue? dem j).getD 0 + vs.sum) := by
  have hrecipe := inputRecipe_congr hst book l
  have hin : l.inputRecipe st book = if (stepAt st (l.members.headD 0)).purchased then none
      else book.get? (stepAt st (l.members.headD 0)).key := rfl
  unfold passOn at h
  dsimp only at h
  have hnothing : l.inputRecipe S book = none → dem' = dem → ∃ vs,
      (l.inputsTo S book owner k j).mapM (l.needFor S book (l.sumOf st Step.runs)) = .ok vs ∧
      lastValue? dem' j = if l.inputsTo S book owner k j = [] then lastValue? dem j
        else some ((lastValue? dem j).getD 0 + vs.sum) := by
    intro hnone hdem
    have hnil : l.inputsTo S book owner k j = [] := by simp [Logical.inputsTo, hnone]
    rw [hnil, hdem]
    exact ⟨[], rfl, by simp⟩
  split at h
  · rename_i hbought
    cases h
    exact hnothing (by rw [← hrecipe, hin, if_pos hbought]) rfl
  · rename_i hbought
    split at h
    · rename_i recipe hget
      have hsome : l.inputRecipe S book = some recipe := by rw [← hrecipe, hin, if_neg hbought, hget]
      obtain ⟨total, htotal, h⟩ := ok_of_bind h
      have htotal : total = l.sumOf st Step.runs := Count.eq_of_sum?_ok htotal
      have hneed : l.needFor S book (l.sumOf st Step.runs) =
          inputNeed recipe (stepAt st (l.members.headD 0)) total := by
        funext m
        rw [inputNeed_congr (sansCounts_stepAt_of_map hst _) recipe, htotal]
        simp [Logical.needFor, hsome, Logical.head]
      have hinputs : l.inputsTo S book owner k j =
          recipe.inputMaterials.filter fun m => owner m == some j && j != k := by
        simp [Logical.inputsTo, hsome]
      rw [hinputs, hneed]
      exact foldlM_passDemand h j
    · rename_i hget
      cases h
      have hnone : book.get? (stepAt st (l.members.headD 0)).key = none := by
        cases hg : book.get? (stepAt st (l.members.headD 0)).key with
        | none => rfl
        | some r => exact (hget r hg).elim
      exact hnothing (by rw [← hrecipe, hin, if_neg hbought, hnone]) rfl

theorem reassignLogical_spec {pinned : List Ident} {st' : List Step} {d d' : DirtySet}
    {dem : List (Nat × Nat)} {l : Logical} {k : Nat}
    (h : reassignLogical pinned st d dem l k = .ok (st', d'))
    (hst : st.map sansCounts = S.map sansCounts) (hnd : l.members.Nodup) (hne : l.members ≠ [])
    (hlen : ∀ m ∈ l.members, m < S.length) :
    Reassigned st st' l.members d d' ∧
      (l.isPinned S pinned = false ∧ ((lastValue? dem k).isSome ∨ 0 < l.sumOf S Step.target) →
        l.sumOf st' Step.quantity = l.sumOf S Step.target + (lastValue? dem k).getD 0 ∧
        l.sumOf st' Step.runs = runsFor (l.sumOf st' Step.quantity) (l.head S).out) ∧
      (¬(l.isPinned S pinned = false ∧ ((lastValue? dem k).isSome ∨ 0 < l.sumOf S Step.target)) →
        st' = st) := by
  have hat := sansCounts_stepAt_of_map hst
  have hpinned : (l.members.any fun m => pinned.contains (stepAt st m).id) =
      l.isPinned S pinned := by
    unfold Logical.isPinned
    congr 1
    funext m
    rw [show (stepAt st m).id = (stepAt S m).id from congrArg (·.id) (hat m)]
  have hout : (stepAt st (l.members.headD 0)).out = (l.head S).out := congrArg (·.out) (hat _)
  unfold reassignLogical at h
  obtain ⟨target, htarget, h⟩ := ok_of_bind h
  have htarget : target = l.sumOf S Step.target :=
    (Count.eq_of_sum?_ok htarget).trans (sumAt_congr fun p _ => congrArg (·.target) (hat p))
  subst htarget
  dsimp only at h
  rw [hpinned] at h
  split at h
  · rename_i hcond
    have hcond' : l.isPinned S pinned = false ∧
        ((lastValue? dem k).isSome ∨ 0 < l.sumOf S Step.target) := by simpa using hcond
    obtain ⟨q, hq, h⟩ := ok_of_bind h
    have hq := Count.eq_of_add?_ok hq
    have hlen' : ∀ m ∈ l.members, m < st.length := fun m hm =>
      (by simpa using congrArg List.length hst : st.length = S.length) ▸ hlen m hm
    obtain ⟨hre, hruns, hqty, -⟩ := assign_spec h hnd hne hlen'
    refine ⟨hre, fun _ => ⟨?_, ?_⟩, fun hn => absurd hcond' hn⟩
    · rw [Logical.sumOf, hqty, hq]
    · rw [Logical.sumOf, Logical.sumOf, hruns, hqty, hq, hout]
  · rename_i hcond
    cases h
    exact ⟨Reassigned.refl _ _ _, fun hc => absurd (by simpa using hc) hcond, fun _ => rfl⟩

end Frame

section Order

variable {S : List Step} {B : RecipeBook}

/-- When consumers come strictly before what they consume, the consumers of the `k`-th logical
step are among the first `k`. -/
theorem consumersIn_take_self
    (horder : ∀ c ∈ logicalSteps S, ∀ l ∈ logicalSteps S, c ≠ l → c.consumes S B l = true →
      c.Precedes S l)
    {k : Nat} (hk : k < (logicalSteps S).length) :
    Logical.consumersIn S B ((logicalSteps S).take k) (logicalSteps S)[k] =
      (logicalSteps S)[k].consumers S B := by
  unfold Logical.consumers Logical.consumersIn
  -- no logical step from the `k`-th on consumes the `k`-th
  have hdrop : ((logicalSteps S).drop k).filter (fun c => c != (logicalSteps S)[k] &&
      c.consumes S B (logicalSteps S)[k]) = [] := by
    refine List.filter_eq_nil_iff.2 fun c hc hcons => ?_
    obtain ⟨i, hi, rfl⟩ := List.mem_drop_iff_getElem.1 hc
    simp only [Bool.and_eq_true, bne_iff_ne, ne_eq] at hcons
    have hprec := horder (logicalSteps S)[k + i] (List.getElem_mem _) _ (List.getElem_mem hk)
      hcons.1 hcons.2
    have := lt_of_precedes hk _ hprec
    omega
  have hsplit := congrArg (List.filter fun c => c != (logicalSteps S)[k] &&
    c.consumes S B (logicalSteps S)[k]) (List.take_append_drop k (logicalSteps S))
  rw [List.filter_append, hdrop, List.append_nil] at hsplit
  exact hsplit

/-- The consumers of a later logical step among the first `k + 1`: those among the first `k`,
then the `k`-th if it is one. -/
theorem consumersIn_take_succ {k j : Nat} (hk : k < (logicalSteps S).length)
    (hj : j < (logicalSteps S).length) (hjk : j ≠ k) :
    Logical.consumersIn S B ((logicalSteps S).take (k + 1)) (logicalSteps S)[j] =
      Logical.consumersIn S B ((logicalSteps S).take k) (logicalSteps S)[j] ++
        if (logicalSteps S)[k].consumes S B (logicalSteps S)[j] then [(logicalSteps S)[k]] else [] := by
  unfold Logical.consumersIn
  rw [List.take_succ_eq_append_getElem hk, List.filter_append]
  congr 1
  have hne : (logicalSteps S)[k] ≠ (logicalSteps S)[j] := fun heq =>
    hjk ((logicalSteps_nodup S).getElem_inj_iff.1 heq).symm
  by_cases hc : (logicalSteps S)[k].consumes S B (logicalSteps S)[j] = true <;>
    simp [hne, hc]

/-- When logical steps make different products, a logical step passes on to another only the
need of that one's product, and that only if it consumes it. -/
theorem inputsTo_ownerOf (hprod : ((logicalSteps S).map fun l => (l.head S).product).Nodup)
    (l : Logical) {k j : Nat} (hj : j < (logicalSteps S).length) (hjk : j ≠ k) :
    l.inputsTo S B (ownerOf S (logicalSteps S)) k j =
      if l.consumes S B (logicalSteps S)[j] then [((logicalSteps S)[j].head S).product] else [] := by
  unfold Logical.inputsTo Logical.consumes
  cases l.inputRecipe S B with
  | none => rfl
  | some r =>
    dsimp only
    have hown : ∀ m, (ownerOf S (logicalSteps S) m == some j && j != k) =
        (m == ((logicalSteps S)[j].head S).product) := by
      intro m
      by_cases hm : m = ((logicalSteps S)[j].head S).product
      · rw [hm, ownerOf_of_nodup hprod hj]
        simp [hjk]
      · have hne : ownerOf S (logicalSteps S) m ≠ some j := by
          intro h
          obtain ⟨hj', hp⟩ := ownerOf_eq_some h
          exact hm hp.symm
        rw [beq_false_of_ne hne, beq_false_of_ne hm]
        rfl
    rw [List.filter_congr fun m _ => hown m, List.filter_beq]
    have hnd : r.inputMaterials.Nodup := ascendingSet_nodup _
    have hmem : ((logicalSteps S)[j].head S).product ∈ r.inputMaterials ↔
        r.inputs.any (·.material == ((logicalSteps S)[j].head S).product) := by
      rw [show r.inputMaterials = ascendingSet (r.inputs.map (·.material)) from rfl,
        mem_ascendingSet]
      simp
    by_cases hp : ((logicalSteps S)[j].head S).product ∈ r.inputMaterials
    · rw [List.count_eq_one_of_mem hnd hp, if_pos (hmem.1 hp)]
      rfl
    · rw [List.count_eq_zero_of_not_mem hp, if_neg (mt hmem.2 hp)]
      rfl

end Order

end Step

end Fabrication
