import Mathlib
import Fabrication.Proofs.Step.Recalculate
import Fabrication.Proofs.Step.Runs

/-!
# Recalculating twice

A recalculation is stable: recalculating what it returns gives the same steps back and reports
no step changed (`recalculate_twice`), whatever steps it started from, with no condition on
their order, their group totals or their copies.

The second pass sees the same logical steps in the same order with the same owners, since
these read only what recalculation keeps (`logicalSteps_congr`, `ownerOf_congr`). It walks
them over the steps the first pass ended with and hands every logical step the demand that the
first pass handed it (`foldlM_recalculateLogical_again`): a logical step reassigned the first
time holds a share-out of its runs and quantity, which sharing out again reproduces
(`assign_of_shared`), and it passes on the same needs. Every member of a group already carries
the total of its group's runs (`healGroups_again`), and every copy already has the runs of the
build steps of its recipe (`followCopies_again`).
-/

namespace Fabrication

open Step

namespace Step

section Logical

theorem stepAt_map_sansCounts (st : List Step) (p : Nat) :
    stepAt (st.map sansCounts) p = sansCounts (stepAt st p) := by
  by_cases hp : p < st.length
  · simp [stepAt, hp]
  · simp [stepAt, hp]
    rfl

theorem placeStep_sansCounts (acc : List Logical × List (Ident × Nat)) (x : Step × Nat) :
    placeStep acc (sansCounts x.1, x.2) = placeStep acc x := by
  obtain ⟨s, i⟩ := x
  cases hs : s.split <;> simp [placeStep, sansCounts, Step.group, hs]

theorem splitIndex_sansCounts (s : Step) :
    (sansCounts s).split.map (·.index) = s.split.map (·.index) := by
  cases hs : s.split <;> simp [sansCounts, hs]

theorem before_map_sansCounts (st : List Step) :
    Logical.before (st.map sansCounts) = Logical.before st := by
  funext a b
  simp only [Logical.before, Logical.head, stepAt_map_sansCounts]
  rfl

/-- The logical steps read the steps only through what recalculation keeps. -/
theorem logicalSteps_map_sansCounts (st : List Step) :
    logicalSteps (st.map sansCounts) = logicalSteps st := by
  have hplace : ((st.map sansCounts).zipIdx.filter (!·.1.isCopy)).foldl placeStep ([], []) =
      (st.zipIdx.filter (!·.1.isCopy)).foldl placeStep ([], []) := by
    rw [List.zipIdx_map, List.filter_map, List.foldl_map]
    exact congrArg (fun g => List.foldl g ([], []) _) (funext₂ fun acc x => placeStep_sansCounts acc x)
  unfold logicalSteps
  simp only [hplace, before_map_sansCounts, stepAt_map_sansCounts, splitIndex_sansCounts]

theorem logicalSteps_congr {st S : List Step} (h : st.map sansCounts = S.map sansCounts) :
    logicalSteps st = logicalSteps S := by
  rw [← logicalSteps_map_sansCounts st, h, logicalSteps_map_sansCounts]

theorem ownerOf_congr {st S : List Step} (h : st.map sansCounts = S.map sansCounts)
    (logical : List Logical) : ownerOf st logical = ownerOf S logical := by
  funext m
  unfold ownerOf Logical.head
  simp only [show ∀ p, (stepAt st p).product = (stepAt S p).product from fun p =>
    congrArg (·.product) (sansCounts_stepAt_of_map h p)]

end Logical

section Share

theorem runsFor_le_self (q out : Nat) : runsFor q out ≤ q := by
  have hd : 0 < Nat.max out 1 := Nat.lt_of_lt_of_le Nat.zero_lt_one (Nat.le_max_right out 1)
  exact (divCeil_le_iff hd).2 (Nat.le_mul_of_pos_left q hd)

theorem shareOut_of_shared {st : List Step} {d : DirtySet} {members : List Nat}
    {quantity runs : Nat} (hruns : sumAt st members Step.runs = runs)
    (hq : QuantitiesShared st members quantity) {k : Nat} (hk : k < members.length) :
    shareOut runs quantity runs members.length
        (st, d, sumAt st (members.take k) Step.runs, sumAt st (members.take k) Step.quantity)
        ((members[k], (stepAt st members[k]).runs), k) =
      (st, d, sumAt st (members.take (k + 1)) Step.runs,
        sumAt st (members.take (k + 1)) Step.quantity) := by
  have hqk := hq k hk
  unfold sharedQuantity at hqk
  have hle : (stepAt st members[k]).runs ≤ runs := hruns ▸ List.le_sum_of_mem
    (List.mem_map_of_mem (f := fun p => (stepAt st p).runs) (List.getElem_mem hk))
  unfold shareOut
  dsimp only
  rw [List.take_succ_eq_append_getElem hk, sumAt_append, sumAt_append, sumAt_singleton,
    sumAt_singleton]
  by_cases hpos : k = members.length - 1
  · have hall : members.take k ++ [members[k]] = members := by
      rw [← List.take_succ_eq_append_getElem hk, hpos, Nat.sub_add_cancel (by omega),
        List.take_length]
    have hsum := hruns
    rw [← hall, sumAt_append, sumAt_singleton] at hsum
    have hr : runs - sumAt st (members.take k) Step.runs = (stepAt st members[k]).runs := by omega
    rw [if_pos hpos] at hqk
    simp only [show (k == members.length - 1) = true from beq_iff_eq.2 hpos, if_true, hr, ← hqk,
      bne_self_eq_false, Bool.or_self, Bool.false_eq_true, if_false]
  · have hshare : (if (runs == 0) = true then runs / members.length
        else runs * (stepAt st members[k]).runs / runs) = (stepAt st members[k]).runs := by
      by_cases hr0 : runs = 0
      · rw [if_pos (beq_iff_eq.2 hr0), hr0, Nat.zero_div]
        omega
      · rw [if_neg (by simpa using hr0), Nat.mul_div_cancel_left _ (Nat.pos_of_ne_zero hr0)]
    rw [if_neg hpos] at hqk
    simp only [show (k == members.length - 1) = false from beq_false_of_ne hpos, hshare, ← hqk,
      Bool.false_eq_true, if_false, bne_self_eq_false, Bool.or_self]

/-- Sharing out again what the members already hold changes nothing: when their runs add up to
`runs` and their quantities are shared out of `quantity`, every member is given what it has. -/
theorem assign_of_shared {st : List Step} {d : DirtySet} {members : List Nat}
    {quantity runs : Nat} (hruns : sumAt st members Step.runs = runs)
    (hq : QuantitiesShared st members quantity) (hbound : runs < Count.bound) :
    assign st d members quantity runs = .ok (st, d) := by
  have hsum : (members.map fun m => (stepAt st m).runs).foldr (· + ·) 0 = runs := hruns
  have hbasis : Count.sum? (members.map fun m => (stepAt st m).runs) = .ok runs := by
    unfold Count.sum? Count.check
    rw [hsum, if_pos hbound]
  have hfold := foldl_zipIdx_invariant (l := members.zip (members.map fun m => (stepAt st m).runs))
    (f := shareOut runs quantity runs members.length) (b := (st, d, 0, 0))
    (fun k acc => acc = (st, d, sumAt st (members.take k) Step.runs,
      sumAt st (members.take k) Step.quantity)) (by simp) fun k hk acc hacc => by
      subst hacc
      have hkm : k < members.length := by simpa using hk
      rw [List.getElem_zip, List.getElem_map]
      exact shareOut_of_shared hruns hq hkm
  unfold assign
  simp only [hbasis, bind, Except.bind, hfold]
  rfl

/-- Whether quantities are shared out reads the runs, quantities and outputs of the members
only. -/
theorem QuantitiesShared.congr {a b : List Step} {members : List Nat} {quantity : Nat}
    (h : QuantitiesShared a members quantity)
    (hm : ∀ m ∈ members, (stepAt b m).runs = (stepAt a m).runs ∧
      (stepAt b m).quantity = (stepAt a m).quantity ∧ (stepAt b m).out = (stepAt a m).out) :
    QuantitiesShared b members quantity := by
  intro k hk
  have hk' := hm _ (List.getElem_mem hk)
  have htake : sumAt b (members.take k) Step.quantity = sumAt a (members.take k) Step.quantity :=
    sumAt_congr fun p hp => (hm p (List.mem_of_mem_take hp)).2.1
  rw [hk'.2.1, h k hk]
  unfold sharedQuantity
  rw [htake, hk'.1, hk'.2.2]

/-- A logical step that one pass reassigned, and whose members hold in `T` what that pass gave
them, is left as it is when reassigned from the same demand again. -/
theorem reassignLogical_again {S st st₁ T : List Step} {pinned : List Ident} {d d₁ e : DirtySet}
    {dem : List (Nat × Nat)} {l : Logical} {k : Nat}
    (h : reassignLogical pinned st d dem l k = .ok (st₁, d₁))
    (hst : st.map sansCounts = S.map sansCounts) (hT : T.map sansCounts = S.map sansCounts)
    (hl : l ∈ logicalSteps S)
    (hcounts : ∀ m ∈ l.members, (stepAt T m).runs = (stepAt st₁ m).runs ∧
      (stepAt T m).quantity = (stepAt st₁ m).quantity) :
    reassignLogical pinned T e dem l k = .ok (T, e) := by
  have hat : ∀ p, sansCounts (stepAt T p) = sansCounts (stepAt st p) := fun p =>
    (sansCounts_stepAt_of_map hT p).trans (sansCounts_stepAt_of_map hst p).symm
  have htarget : (l.members.map fun m => (stepAt T m).target) =
      l.members.map fun m => (stepAt st m).target :=
    List.map_congr_left fun m _ => congrArg (·.target) (hat m)
  have hpinned : (l.members.any fun m => pinned.contains (stepAt T m).id) =
      l.members.any fun m => pinned.contains (stepAt st m).id := by
    simp only [show ∀ m, (stepAt T m).id = (stepAt st m).id from fun m => congrArg (·.id) (hat m)]
  have hout : (stepAt T (l.members.headD 0)).out = (stepAt st (l.members.headD 0)).out :=
    congrArg (·.out) (hat _)
  unfold reassignLogical at h ⊢
  rw [htarget, hpinned, hout]
  obtain ⟨target, htgt, h⟩ := ok_of_bind h
  simp only [htgt, bind, Except.bind]
  dsimp only at h ⊢
  split at h
  · rename_i hcond
    rw [if_pos hcond]
    obtain ⟨q, hq, h⟩ := ok_of_bind h
    simp only [hq]
    have hlen : ∀ m ∈ l.members, m < st.length := fun m hm =>
      (by simpa using congrArg List.length hst : st.length = S.length) ▸ (mem_members hl hm).1
    obtain ⟨hR, hruns, -, hshared⟩ := assign_spec h (members_nodup hl) (members_ne_nil hl) hlen
    refine assign_of_shared ?_ (hshared.congr fun m hm => ⟨(hcounts m hm).1, (hcounts m hm).2,
      congrArg (·.out) ((hat m).trans (hR.sansCounts_stepAt m).symm)⟩) ?_
    · rw [← hruns]
      exact sumAt_congr fun p hp => (hcounts p hp).1
    · exact Nat.lt_of_le_of_lt (runsFor_le_self _ _) (Count.lt_bound_of_check_ok hq)
  · rename_i hcond
    rw [if_neg hcond]
    rfl

end Share

section Pass

variable {S : List Step} {B : RecipeBook} {P : List Ident} {owner : Nat → Option Nat}

/-- Passing demand on reads the head of a logical step, which recalculation keeps, and the runs
of its members. -/
theorem passOn_congr {a b : List Step} {dem : List (Nat × Nat)} {l : Logical} {k : Nat}
    (hhead : sansCounts (stepAt a (l.members.headD 0)) = sansCounts (stepAt b (l.members.headD 0)))
    (hruns : ∀ m ∈ l.members, (stepAt a m).runs = (stepAt b m).runs) :
    passOn B owner a dem l k = passOn B owner b dem l k := by
  have hpurchased : (stepAt a (l.members.headD 0)).purchased =
      (stepAt b (l.members.headD 0)).purchased := congrArg (·.purchased) hhead
  have hkey : (stepAt a (l.members.headD 0)).key = (stepAt b (l.members.headD 0)).key :=
    congrArg (·.key) hhead
  have hmap : (l.members.map fun m => (stepAt a m).runs) = l.members.map fun m => (stepAt b m).runs :=
    List.map_congr_left hruns
  unfold passOn
  simp only [hpurchased, hkey, hmap, inputNeed_congr hhead]

/-- A run of the loop over logical steps reassigns at most their members, which are distinct. -/
theorem foldlM_recalculateLogical_frame {xs : List (Logical × Nat)}
    (hxs : ∀ x ∈ xs, x.1 ∈ logicalSteps S) (hnd : (xs.flatMap (·.1.members)).Nodup)
    {st st₁ : List Step} {d d₁ : DirtySet} {dem dem₁ : List (Nat × Nat)}
    (hst : st.map sansCounts = S.map sansCounts)
    (h : xs.foldlM (recalculateLogical B P owner) (st, d, dem) = .ok (st₁, d₁, dem₁)) :
    Reassigned st st₁ (xs.flatMap (·.1.members)) d d₁ := by
  induction xs generalizing st d dem with
  | nil =>
    cases h
    exact Reassigned.refl _ _ _
  | cons x xs ih =>
    rw [List.foldlM_cons] at h
    obtain ⟨⟨st', d', dem'⟩, hx, h⟩ := ok_of_bind h
    unfold recalculateLogical at hx
    obtain ⟨⟨st'', d''⟩, hre, hx⟩ := ok_of_bind hx
    obtain ⟨dem'', -, hx⟩ := ok_of_bind hx
    cases hx
    have hl := hxs x (by simp)
    have hR := (reassignLogical_spec hre hst (members_nodup hl) (members_ne_nil hl)
      fun m hm => (mem_members hl hm).1).1
    rw [List.flatMap_cons] at hnd ⊢
    have hrest := ih (fun y hy => hxs y (by simp [hy])) (List.nodup_append.1 hnd).2.1
      (hR.frame.trans hst) h
    exact hR.trans hrest fun p hp hpx => (List.nodup_append.1 hnd).2.2 p hpx p hp rfl

/-- Running the loop over logical steps again, from steps whose members hold what the first run
gave them, changes nothing and passes the same demand on. -/
theorem foldlM_recalculateLogical_again {T : List Step} {xs : List (Logical × Nat)}
    (hxs : ∀ x ∈ xs, x.1 ∈ logicalSteps S) (hnd : (xs.flatMap (·.1.members)).Nodup)
    (hT : T.map sansCounts = S.map sansCounts) {st st₁ : List Step} {d d₁ e : DirtySet}
    {dem dem₁ : List (Nat × Nat)} (hst : st.map sansCounts = S.map sansCounts)
    (h : xs.foldlM (recalculateLogical B P owner) (st, d, dem) = .ok (st₁, d₁, dem₁))
    (hcounts : ∀ p ∈ xs.flatMap (·.1.members), (stepAt T p).runs = (stepAt st₁ p).runs ∧
      (stepAt T p).quantity = (stepAt st₁ p).quantity) :
    xs.foldlM (recalculateLogical B P owner) (T, e, dem) = .ok (T, e, dem₁) := by
  induction xs generalizing st d dem with
  | nil =>
    cases h
    rfl
  | cons x xs ih =>
    rw [List.foldlM_cons] at h
    obtain ⟨⟨st', d', dem'⟩, hx, h⟩ := ok_of_bind h
    unfold recalculateLogical at hx
    obtain ⟨⟨st'', d''⟩, hre, hx⟩ := ok_of_bind hx
    obtain ⟨dem'', hpass, hx⟩ := ok_of_bind hx
    cases hx
    have hl := hxs x (by simp)
    have hR := (reassignLogical_spec hre hst (members_nodup hl) (members_ne_nil hl)
      fun m hm => (mem_members hl hm).1).1
    have hst' : st'.map sansCounts = S.map sansCounts := hR.frame.trans hst
    rw [List.flatMap_cons] at hnd hcounts
    have hxs' : ∀ y ∈ xs, y.1 ∈ logicalSteps S := fun y hy => hxs y (by simp [hy])
    have hrest := foldlM_recalculateLogical_frame hxs' (List.nodup_append.1 hnd).2.1 hst' h
    -- the rest of the loop leaves the members of `x` as the reassignment of `x` made them
    have hmine : ∀ m ∈ x.1.members, (stepAt T m).runs = (stepAt st' m).runs ∧
        (stepAt T m).quantity = (stepAt st' m).quantity := by
      intro m hm
      have hnot : m ∉ xs.flatMap (·.1.members) := fun hmem =>
        (List.nodup_append.1 hnd).2.2 m hm m hmem rfl
      obtain ⟨hr, hq⟩ := hcounts m (List.mem_append_left _ hm)
      exact ⟨hr.trans (hrest.runs m hnot), hq.trans (hrest.quantity m hnot)⟩
    have hre' := reassignLogical_again (e := e) hre hst hT hl hmine
    have hpass' : passOn B owner T dem x.1 x.2 = .ok dem' := by
      rw [passOn_congr ((sansCounts_stepAt_of_map hT _).trans (sansCounts_stepAt_of_map hst' _).symm)
        fun m hm => (hmine m hm).1]
      exact hpass
    have hstep : recalculateLogical B P owner (T, e, dem) x = .ok (T, e, dem') := by
      unfold recalculateLogical
      simp only [hre', hpass', bind, Except.bind, pure, Except.pure]
    rw [List.foldlM_cons, hstep]
    exact ih hxs' (List.nodup_append.1 hnd).2.1 hst' h fun p hp => hcounts p (List.mem_append_right _ hp)

end Pass

section Heal

/-- A step with its group's total set to `total`, when it is in a group. -/
def withTotal (total : Nat) (s : Step) : Step :=
  match s.split with
  | some info => { s with split := some { info with total } }
  | none => s

theorem withTotal_withTotal (total : Nat) (s : Step) :
    withTotal total (withTotal total s) = withTotal total s := by
  unfold withTotal
  cases hs : s.split <;> simp [hs]

section Overwrite

variable {f : List Step → Nat → List Step} {w : Step → Step}

/-- A fold that overwrites the step at each position with `w` of it changes nothing where `w`
changes nothing. -/
theorem foldl_overwrite_of_fixed (hf : ∀ steps m, f steps m = steps.set m (w (stepAt steps m)))
    {ms : List Nat} {st : List Step} (hfix : ∀ m ∈ ms, w (stepAt st m) = stepAt st m) :
    ms.foldl f st = st := by
  induction ms with
  | nil => rfl
  | cons m ms ih =>
    have hm : f st m = st := by
      rw [hf, hfix m (by simp)]
      by_cases hlt : m < st.length
      · exact set_stepAt_self hlt
      · exact List.set_eq_of_length_le (Nat.le_of_not_lt hlt)
    rw [List.foldl_cons, hm]
    exact ih fun m' hm' => hfix m' (by simp [hm'])

theorem length_foldl_overwrite (hf : ∀ steps m, f steps m = steps.set m (w (stepAt steps m)))
    (ms : List Nat) (st : List Step) : (ms.foldl f st).length = st.length := by
  induction ms generalizing st with
  | nil => rfl
  | cons m ms ih => rw [List.foldl_cons, ih, hf, List.length_set]

theorem stepAt_foldl_overwrite_of_not_mem
    (hf : ∀ steps m, f steps m = steps.set m (w (stepAt steps m))) {ms : List Nat} {p : Nat}
    (hp : p ∉ ms) (st : List Step) : stepAt (ms.foldl f st) p = stepAt st p := by
  induction ms generalizing st with
  | nil => rfl
  | cons m ms ih =>
    rw [List.mem_cons, not_or] at hp
    rw [List.foldl_cons, ih hp.2, hf, stepAt_set_of_ne hp.1]

theorem stepAt_foldl_overwrite_of_mem
    (hf : ∀ steps m, f steps m = steps.set m (w (stepAt steps m))) {ms : List Nat}
    (hnd : ms.Nodup) {p : Nat} (hp : p ∈ ms) {st : List Step} (hlt : p < st.length) :
    stepAt (ms.foldl f st) p = w (stepAt st p) := by
  induction ms generalizing st with
  | nil => cases hp
  | cons m ms ih =>
    rw [List.nodup_cons] at hnd
    rw [List.foldl_cons]
    rcases List.mem_cons.1 hp with rfl | hp
    · rw [stepAt_foldl_overwrite_of_not_mem hf hnd.1, hf, stepAt_set_self hlt]
    · have hne : p ≠ m := fun h => hnd.1 (h ▸ hp)
      rw [ih hnd.2 hp (by rw [hf, List.length_set]; exact hlt), hf, stepAt_set_of_ne hne]

end Overwrite

/-- Recording a group's total in the step at a member overwrites it with `withTotal`. -/
theorem healMember_overwrites (total : Nat) (steps : List Step) (m : Nat) :
    (match (stepAt steps m).split with
      | some info => steps.set m { stepAt steps m with split := some { info with total } }
      | none => steps) = steps.set m (withTotal total (stepAt steps m)) := by
  unfold withTotal
  split
  · rfl
  · by_cases hlt : m < steps.length
    · exact (set_stepAt_self hlt).symm
    · exact (List.set_eq_of_length_le (Nat.le_of_not_lt hlt)).symm

/-- Recording group totals leaves the steps at positions of no member as they are. -/
theorem healGroups_of_not_mem {L : List Logical} {st st₂ : List Step} (h : healGroups L st = .ok st₂)
    {p : Nat} (hp : p ∉ L.flatMap (·.members)) : stepAt st₂ p = stepAt st p := by
  induction L generalizing st with
  | nil =>
    cases h
    rfl
  | cons l L ih =>
    unfold healGroups at h
    rw [List.foldlM_cons] at h
    obtain ⟨st', hl, h⟩ := ok_of_bind h
    rw [List.flatMap_cons, List.mem_append, not_or] at hp
    rw [ih h hp.2]
    split at hl
    · cases hl
      rfl
    · obtain ⟨total, -, hl⟩ := ok_of_bind hl
      cases hl
      exact stepAt_foldl_overwrite_of_not_mem (healMember_overwrites total) hp.1 st

/-- Recording group totals again, in steps that hold at every member what the first recording
left there, changes nothing: each member already carries the total of its group's runs, which
the recording leaves as they are. -/
theorem healGroups_again {S : List Step} {L : List Logical} (hL : ∀ l ∈ L, l ∈ logicalSteps S)
    (hnd : (L.flatMap (·.members)).Nodup) {st st₂ T : List Step} (hlen : st.length = S.length)
    (h : healGroups L st = .ok st₂) (hmem : ∀ p ∈ L.flatMap (·.members), stepAt T p = stepAt st₂ p) :
    healGroups L T = .ok T := by
  induction L generalizing st with
  | nil => rfl
  | cons l L ih =>
    have hl := hL l (by simp)
    have hkeep := healGroups_keeps_counts h {}
    unfold healGroups at h
    rw [List.foldlM_cons] at h
    obtain ⟨st', hstep, h⟩ := ok_of_bind h
    rw [List.flatMap_cons] at hnd hmem
    have hnot : ∀ m ∈ l.members, m ∉ L.flatMap (·.members) := fun m hm hmem' =>
      (List.nodup_append.1 hnd).2.2 m hm m hmem' rfl
    -- at a member of `l`, `T` holds what recording `l` left there
    have hT : ∀ m ∈ l.members, stepAt T m = stepAt st' m := fun m hm =>
      (hmem m (List.mem_append_left _ hm)).trans (healGroups_of_not_mem h (hnot m hm))
    have hruns : ∀ m ∈ l.members, (stepAt T m).runs = (stepAt st m).runs := fun m hm => by
      rw [hmem m (List.mem_append_left _ hm)]
      exact hkeep.runs m (List.not_mem_nil)
    have hhd : l.members.headD 0 ∈ l.members := by
      cases hm : l.members with
      | nil => exact absurd hm (members_ne_nil hl)
      | cons a t => simp
    have hhead : (stepAt T (l.members.headD 0)).isSplit = (stepAt st (l.members.headD 0)).isSplit := by
      have hsc := hkeep.sansCounts_stepAt (l.members.headD 0)
      rw [hmem _ (List.mem_append_left _ hhd)]
      simpa [sansCounts, Step.isSplit] using congrArg (·.split.isSome) hsc
    have hlen' : st'.length = S.length := by
      rw [← hlen]
      split at hstep
      · cases hstep
        rfl
      · obtain ⟨total, -, hstep⟩ := ok_of_bind hstep
        cases hstep
        exact length_foldl_overwrite (healMember_overwrites total) _ _
    have hIH : healGroups L T = .ok T := ih (fun l' hl' => hL l' (by simp [hl']))
      (List.nodup_append.1 hnd).2.1 hlen' h fun p hp => hmem p (List.mem_append_right _ hp)
    unfold healGroups
    rw [List.foldlM_cons, hhead]
    split at hstep
    · rename_i hs
      rw [if_pos hs]
      exact hIH
    · rename_i hs
      rw [if_neg hs]
      obtain ⟨total, htotal, hstep⟩ := ok_of_bind hstep
      have hover : ∀ m ∈ l.members, stepAt st' m = withTotal total (stepAt st m) := by
        cases hstep
        intro m hm
        exact stepAt_foldl_overwrite_of_mem (healMember_overwrites total) (members_nodup hl) hm
          (hlen ▸ (mem_members hl hm).1)
      have hfix : ∀ m ∈ l.members, withTotal total (stepAt T m) = stepAt T m := by
        intro m hm
        rw [hT m hm, hover m hm, withTotal_withTotal]
      have hmap : (l.members.map fun m => (stepAt T m).runs) =
          l.members.map fun m => (stepAt st m).runs := List.map_congr_left hruns
      rw [hmap, htotal]
      exact (congrArg (healGroups L) (foldl_overwrite_of_fixed (healMember_overwrites total) hfix)).trans
        hIH

end Heal

section Copies

/-- A copy step that followed the build steps of its recipe has nothing left to follow. -/
theorem followRuns_followStep (primaries : List (Nat × Nat)) (s : Step) :
    followRuns primaries (followStep primaries s) = none := by
  have hsc := followStep_sansCounts primaries s
  have hcopy : (followStep primaries s).isCopy = s.isCopy := congrArg (·.isCopy) hsc
  have hrecipe : (followStep primaries s).recipe = s.recipe := congrArg (·.recipe) hsc
  cases hc : s.isCopy
  · unfold followRuns
    simp [hcopy, hc]
  · cases hl : lastValue? primaries s.recipe with
    | none =>
      unfold followRuns
      simp [hcopy, hc, hrecipe, hl]
    | some r =>
      obtain ⟨hr, hq⟩ := followStep_of_lastValue hc hl
      rw [followRuns_of_lastValue (hcopy.trans hc) (by rw [hrecipe]; exact hl), hr, hq]
      simp

theorem followStep_followStep (primaries : List (Nat × Nat)) (s : Step) :
    followStep primaries (followStep primaries s) = followStep primaries s := by
  have hnone := followRuns_followStep primaries s
  generalize followStep primaries s = t at hnone ⊢
  unfold followStep
  rw [hnone]

theorem stepAt_map_followStep (primaries : List (Nat × Nat)) (st : List Step) (p : Nat) :
    stepAt (st.map (followStep primaries)) p = followStep primaries (stepAt st p) := by
  by_cases hp : p < st.length
  · exact stepAt_map_of_lt hp
  · have hend : stepAt st p = default := by simp [stepAt, hp]
    rw [hend, followStep_of_none (.inl rfl)]
    simp [stepAt, hp]

/-- Following copies leaves every step that is not a copy as it is. -/
theorem followCopies_of_not_copy {L : List Logical} {st T : List Step} {d d' : DirtySet}
    (h : followCopies L st d = .ok (T, d')) {p : Nat} (hp : (stepAt st p).isCopy = false) :
    stepAt T p = stepAt st p := by
  unfold followCopies at h
  obtain ⟨primaries, -, h⟩ := ok_of_bind h
  cases h
  rw [stepAt_map_followStep, followStep_of_none (.inl hp)]

/-- Following copies again, when no member of a logical step is a copy, changes nothing: the
build steps have the same runs, and every copy already took them. -/
theorem followCopies_again {L : List Logical} {st T : List Step} {d d' : DirtySet}
    (h : followCopies L st d = .ok (T, d'))
    (hL : ∀ l ∈ L, ∀ m ∈ l.members, (stepAt st m).isCopy = false) (e : DirtySet) :
    followCopies L T e = .ok (T, e) := by
  have hmem : ∀ l ∈ L, ∀ m ∈ l.members, stepAt T m = stepAt st m := fun l hl m hm =>
    followCopies_of_not_copy h (hL l hl m hm)
  unfold followCopies at h
  obtain ⟨primaries, hprim, h⟩ := ok_of_bind h
  obtain rfl : st.map (followStep primaries) = T := by
    cases h
    rfl
  have hat : ∀ p, sansCounts (stepAt (st.map (followStep primaries)) p) = sansCounts (stepAt st p) :=
    fun p => by rw [stepAt_map_followStep, followStep_sansCounts]
  have hfilter : (L.filter fun l =>
        (stepAt (st.map (followStep primaries)) (l.members.headD 0)).activity == .build) =
      L.filter fun l => (stepAt st (l.members.headD 0)).activity == .build :=
    List.filter_congr fun l _ => by rw [show (stepAt (st.map (followStep primaries))
      (l.members.headD 0)).activity = (stepAt st (l.members.headD 0)).activity from
        congrArg (·.activity) (hat _)]
  have hprim' : ((L.filter fun l =>
        (stepAt (st.map (followStep primaries)) (l.members.headD 0)).activity == .build).mapM
      fun l => do
        let total ← Count.sum? (l.members.map fun m => (stepAt (st.map (followStep primaries)) m).runs)
        pure ((stepAt (st.map (followStep primaries)) (l.members.headD 0)).recipe, total)) =
      .ok primaries := by
    rw [hfilter, ← hprim]
    refine mapM_congr fun l hl => ?_
    have hl' : l ∈ L := List.mem_of_mem_filter hl
    rw [List.map_congr_left fun m hm => congrArg (·.runs) (hmem l hl' m hm),
      show (stepAt (st.map (followStep primaries)) (l.members.headD 0)).recipe =
        (stepAt st (l.members.headD 0)).recipe from congrArg (·.recipe) (hat _)]
  have hnone : (st.map (followStep primaries)).filter (fun s => (followRuns primaries s).isSome) = [] :=
    List.filter_eq_nil_iff.2 fun s hs => by
      obtain ⟨s₀, -, rfl⟩ := List.mem_map.1 hs
      simp [followRuns_followStep]
  unfold followCopies
  rw [hprim']
  simp only [bind, Except.bind, hnone, List.foldl_nil, List.map_map, pure, Except.pure]
  congr 2
  exact List.map_congr_left fun s _ => followStep_followStep primaries s

end Copies

/-- The logical steps in the order the loop visits them. -/
theorem map_fst_zipIdx_logicalSteps (S : List Step) :
    (logicalSteps S).zipIdx.map Prod.fst = logicalSteps S := by
  rw [← List.unzip_fst, List.unzip_zipIdx_eq_prod]

/-- The loop over all logical steps, in recalculation order, reassigns at most their members. -/
theorem recalculateLoop_frame {S : List Step} {B : RecipeBook} {P : List Ident}
    {owner : Nat → Option Nat} {st₁ : List Step} {d₁ : DirtySet} {dem : List (Nat × Nat)}
    (h : (logicalSteps S).zipIdx.foldlM (recalculateLogical B P owner) (S, {}, []) =
      .ok (st₁, d₁, dem)) :
    Reassigned S st₁ ((logicalSteps S).flatMap (·.members)) {} d₁ := by
  have hflat : (logicalSteps S).zipIdx.flatMap (·.1.members) =
      (logicalSteps S).flatMap (·.members) := by
    rw [← List.flatMap_map, map_fst_zipIdx_logicalSteps]
  have hR := foldlM_recalculateLogical_frame (fun x hx => List.fst_mem_of_mem_zipIdx hx)
    (hflat ▸ nodup_flatMap_members S) rfl h
  rwa [hflat] at hR

/-- Recalculation is stable: recalculating the steps a recalculation returned gives them back
and reports no step changed. No condition on the steps recalculated first is needed: their
group totals may be stale, consumers may come after what they consume, and copies may have no
build step to follow. -/
theorem recalculate_twice {S : List Step} {B : RecipeBook} {P : List Ident} {r : Recalculation}
    (h : recalculate S B P = .ok r) : recalculate r.steps B P = .ok ⟨r.steps, []⟩ := by
  unfold recalculate at h
  obtain ⟨⟨st₁, d₁, dem⟩, hloop, h⟩ := ok_of_bind h
  obtain ⟨st₂, hheal, h⟩ := ok_of_bind h
  obtain ⟨⟨st₃, d₃⟩, hcopy, h⟩ := ok_of_bind h
  obtain rfl : r = ⟨st₃, d₃.ids⟩ := by
    cases h
    rfl
  -- the loop visits every logical step once, and their members are distinct
  have hxs : ∀ x ∈ (logicalSteps S).zipIdx, x.1 ∈ logicalSteps S :=
    fun x hx => List.fst_mem_of_mem_zipIdx hx
  have hflat : (logicalSteps S).zipIdx.flatMap (·.1.members) = (logicalSteps S).flatMap (·.members) := by
    rw [← List.flatMap_map, map_fst_zipIdx_logicalSteps]
  have hnd : ((logicalSteps S).zipIdx.flatMap (·.1.members)).Nodup :=
    hflat ▸ nodup_flatMap_members S
  have hR₁ := recalculateLoop_frame hloop
  obtain ⟨hframe, -, hkeep, -⟩ := finish_spec hR₁ hheal hcopy
  have hst₂ : st₂.map sansCounts = S.map sansCounts := (healGroups_keeps_counts hheal d₁).frame.trans hR₁.frame
  have hcopy₂ : ∀ l ∈ logicalSteps S, ∀ m ∈ l.members, (stepAt st₂ m).isCopy = false :=
    fun l hl m hm => (congrArg (·.isCopy) (sansCounts_stepAt_of_map hst₂ m)).trans (mem_members hl hm).2
  have hloop' := foldlM_recalculateLogical_again (e := {}) hxs hnd hframe rfl hloop fun p hp => by
    obtain ⟨l, hl, hpl⟩ := List.mem_flatMap.1 (hflat ▸ hp)
    exact hkeep p (mem_members hl hpl).2
  have hheal' := healGroups_again (fun l hl => hl) (nodup_flatMap_members S) hR₁.length_eq hheal
    fun p hp => by
      obtain ⟨l, hl, hpl⟩ := List.mem_flatMap.1 hp
      exact followCopies_of_not_copy hcopy (hcopy₂ l hl p hpl)
  have hcopy' := followCopies_again hcopy hcopy₂ {}
  unfold recalculate
  dsimp only
  rw [logicalSteps_congr hframe, ownerOf_congr hframe, hloop']
  simp only [bind, Except.bind, hheal', hcopy', pure, Except.pure]

/-- A split group of two build steps of product `1`, with runs three and one, a target of ten
and no group total recorded; a build of product `2` that consumes product `1` yet comes after
it; and a copy of the first recipe. -/
def staleSample : List Step :=
  [{ id := .given 1, recipe := 1, product := 1, runs := 3, quantity := 3, target := 10,
     split := some ⟨.given 9, 0, 0⟩ },
   { id := .given 2, recipe := 1, product := 1, runs := 1, quantity := 1,
     split := some ⟨.given 9, 1, 0⟩ },
   { id := .given 3, recipe := 2, product := 2, runs := 2, quantity := 2, target := 2 },
   { id := .given 4, recipe := 1, activity := .duplicate, product := 1 }]

/-- The recipes of `staleSample`. -/
def staleSampleBook : RecipeBook :=
  { recipes := [⟨1, .build, [], [⟨1, 1⟩], 60⟩, ⟨2, .build, [⟨1, 2⟩], [⟨2, 1⟩], 60⟩] }

/-- Recalculating the sample changes some steps, and recalculating the result changes none. -/
theorem recalculate_twice_stale :
    ∃ r, recalculate staleSample staleSampleBook [] = .ok r ∧ r.changed ≠ [] ∧
      recalculate r.steps staleSampleBook [] = .ok ⟨r.steps, []⟩ := by
  obtain ⟨r, hr, hchanged⟩ := exists_ok_of_check
    (x := recalculate staleSample staleSampleBook []) (p := fun r => !r.changed.isEmpty)
    (by decide +kernel)
  exact ⟨r, hr, by simpa using hchanged, recalculate_twice hr⟩

end Step

end Fabrication
