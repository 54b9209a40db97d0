import Fabrication.Proofs.Step.WellFormed
import Fabrication.Proofs.Step.Recalculate

/-!
# Recalculation restores well-formed plans

A recalculation rewrites runs, quantities and group totals, nothing else. Started from grouped
steps (`Step.Grouped`) whose copies are not split, it returns well-formed steps
(`recalculate_wellFormed`), whatever the demand it passes down:

* the pass gives every member of a logical step its share of the logical step's runs and the
  units those make out of the logical step's quantity, the last member all that is left, so
  each member has the runs its units need (`sharedRuns_fit`, `pass_fits`);
* recording group totals gives every member of a group the sum of the group's runs
  (`healGroups_totals`), the group being one logical step (`mem_members_iff`);
* a copy takes the runs of the logical step that builds its recipe, whose members are the
  steps of that recipe key (`members_iff_key`).
-/

namespace Fabrication

namespace Step

/-- Every step other than a copy has the runs its quantity needs. -/
def RunsFit (steps : List Step) : Prop :=
  ∀ p < steps.length, (stepAt steps p).isCopy = false →
    (stepAt steps p).runs = runsFor (stepAt steps p).quantity (stepAt steps p).out

section Share

variable {st : List Step} {members : List Nat}

/-- A share whose product saturates at the largest count is the plain share, when what is left
of the quantity fits in a count. -/
theorem min_satMul_eq {r o left : Nat} (hleft : left ≤ Count.top) :
    Nat.min (Count.satMul r o) left = Nat.min (r * o) left := by
  unfold Count.satMul
  simp only [Nat.min_eq_min]
  omega

theorem sumAt_take_le (k : Nat) (f : Step → Nat) :
    sumAt st (members.take k) f ≤ sumAt st members f := by
  conv_rhs => rw [← List.take_append_drop k members]
  rw [sumAt_append]
  exact Nat.le_add_right _ _

theorem sumAt_take_succ {k : Nat} (hk : k < members.length) (f : Step → Nat) :
    sumAt st (members.take (k + 1)) f = sumAt st (members.take k) f + f (stepAt st members[k]) := by
  rw [List.take_succ_eq_append_getElem hk, sumAt_append, sumAt_singleton]

/-- Members that make `o` units a run and hand out runs adding up to those `Q` needs, each
with the units its runs make out of what is left of `Q` and the last with all that is left,
each have the runs their units need. -/
theorem sharedRuns_fit {Q o : Nat} (ho : 0 < o) (hout : ∀ m ∈ members, (stepAt st m).out = o)
    (hQ : Q ≤ Count.top) (hruns : sumAt st members Step.runs = runsFor Q o)
    (hshared : QuantitiesShared st members Q) :
    ∀ m ∈ members, (stepAt st m).runs = runsFor (stepAt st m).quantity o := by
  -- after `k` members the units handed out are what their runs make, up to `Q`, and each of
  -- them has the runs its units need
  have key : ∀ k ≤ members.length,
      sumAt st (members.take k) Step.quantity =
        Nat.min (o * sumAt st (members.take k) Step.runs) Q ∧
      ∀ j (hj : j < members.length), j < k →
        (stepAt st members[j]).runs = runsFor (stepAt st members[j]).quantity o := by
    intro k
    induction k with
    | zero => intro _; simp
    | succ k ih =>
      intro hk
      have hkm : k < members.length := by omega
      obtain ⟨hsum, hfit⟩ := ih hkm.le
      set gr := sumAt st (members.take k) Step.runs
      set r := (stepAt st members[k]).runs
      have hbound : gr + r ≤ runsFor Q o := by
        rw [← hruns, ← sumAt_take_succ hkm]
        exact sumAt_take_le _ _
      have hq := hshared k hkm
      unfold sharedQuantity at hq
      rw [hout _ (List.getElem_mem hkm)] at hq
      have hnow : (stepAt st members[k]).runs = runsFor (stepAt st members[k]).quantity o ∧
          sumAt st (members.take k) Step.quantity + (stepAt st members[k]).quantity =
            Nat.min (o * (gr + r)) Q := by
        by_cases hlast : k = members.length - 1
        · rw [if_pos hlast] at hq
          have hall : gr + r = runsFor Q o := by
            rw [← hruns, ← sumAt_take_succ hkm, show k + 1 = members.length by omega,
              List.take_length]
          have hmade : Q ≤ o * (gr + r) := (runsFor_le_iff ho).1 (Nat.le_of_eq hall.symm)
          have hle : sumAt st (members.take k) Step.quantity ≤ Q := by
            rw [hsum]
            exact Nat.min_le_right _ _
          refine ⟨?_, ?_⟩
          · rw [hq, hsum, runsFor_rest ho (by omega)]
            omega
          · rw [hq, Nat.add_sub_cancel' hle, Nat.min_eq_min, Nat.min_eq_right hmade]
        · rw [if_neg hlast, min_satMul_eq (Nat.le_trans (Nat.sub_le _ _) hQ)] at hq
          refine ⟨?_, ?_⟩
          · rw [hq, hsum, runsFor_share ho hbound]
          · rw [hq, hsum, share_add]
      refine ⟨by rw [sumAt_take_succ hkm, sumAt_take_succ hkm, hnow.2], fun j hj hjk => ?_⟩
      rcases Nat.lt_succ_iff_lt_or_eq.1 hjk with hjk | rfl
      · exact hfit j hj hjk
      · exact hnow.1
  intro m hm
  obtain ⟨j, hj, rfl⟩ := List.getElem_of_mem hm
  exact (key members.length le_rfl).2 j hj hj

end Share

section Pass

variable {S : List Step} {B : RecipeBook} {P : List Ident}

theorem stepAt_mem {p : Nat} (hp : p < S.length) : stepAt S p ∈ S := by
  simp [stepAt, hp]

theorem Grouped.runsFit (hg : Grouped S) : RunsFit S := fun _ hp hcopy =>
  (hg.runs _ (stepAt_mem hp) hcopy).2

theorem groupView_key {s t : Step} (h : s.groupView = t.groupView) : s.key = t.key := by
  simp only [groupView, Prod.mk.injEq] at h
  simp [key, h.1, h.2.1]

theorem groupView_out {s t : Step} (h : s.groupView = t.groupView) : s.out = t.out := by
  simp only [groupView, Prod.mk.injEq] at h
  exact h.2.2.2.2.1

/-- The first member of a logical step is one of its members. -/
theorem headD_mem {l : Logical} (hl : l ∈ logicalSteps S) : l.members.headD 0 ∈ l.members := by
  obtain ⟨a, t, ht⟩ := List.exists_cons_of_ne_nil (members_ne_nil hl)
  rw [ht]
  exact List.mem_cons_self

/-- The members of a logical step of grouped steps share its first member's view of a group:
its key and its units a run among them. -/
theorem groupView_eq_head (hg : Grouped S) {l : Logical} (hl : l ∈ logicalSteps S) {m : Nat}
    (hm : m ∈ l.members) : (stepAt S m).groupView = (l.head S).groupView := by
  rcases ((mem_members_iff hl (headD_mem hl) m).1 hm).2.2 with rfl | ⟨hgrp, hsome⟩
  · rfl
  · have hlen := (mem_members hl (headD_mem hl)).1
    exact (hg.shared _ (stepAt_mem hlen) _ (stepAt_mem (mem_members hl hm).1) hsome
      hgrp.symm).symm

/-- Reassigning a logical step leaves the steps alone, or shares out among its members a
quantity that fits in a count, in the runs that quantity needs at the first member's units a
run. -/
theorem reassignLogical_cases {st st' : List Step} {d d' : DirtySet} {dem : List (Nat × Nat)}
    {l : Logical} {k : Nat} (h : reassignLogical P st d dem l k = .ok (st', d')) :
    st' = st ∨ ∃ q ≤ Count.top, assign st d l.members q
      (runsFor q (stepAt st (l.members.headD 0)).out) = .ok (st', d') := by
  unfold reassignLogical at h
  obtain ⟨target, -, h⟩ := ok_of_bind h
  dsimp only at h
  split at h
  · obtain ⟨q, hq, h⟩ := ok_of_bind h
    have hq' := Count.lt_bound_of_check_ok hq
    refine .inr ⟨q, ?_, h⟩
    unfold Count.top
    unfold Count.bound at hq'
    omega
  · cases h
    exact .inl rfl

theorem recalculateLogical_cases {owner : Nat → Option Nat} {st : List Step} {d : DirtySet}
    {dem : List (Nat × Nat)} {acc' : List Step × DirtySet × List (Nat × Nat)} {l : Logical}
    {index : Nat} (h : recalculateLogical B P owner (st, d, dem) (l, index) = .ok acc') :
    acc'.1 = st ∨ ∃ q ≤ Count.top, ∃ d', assign st d l.members q
      (runsFor q (stepAt st (l.members.headD 0)).out) = .ok (acc'.1, d') := by
  unfold recalculateLogical at h
  obtain ⟨⟨st₁, d₁⟩, hre, h⟩ := ok_of_bind h
  obtain ⟨dem₁, -, h⟩ := ok_of_bind h
  cases h
  rcases reassignLogical_cases hre with rfl | ⟨q, hq, ha⟩
  · exact .inl rfl
  · exact .inr ⟨q, hq, d₁, ha⟩

/-- The pass over the logical steps of grouped steps changes nothing but counts, and leaves
every step other than a copy with the runs its quantity needs. -/
theorem pass_fits (hg : Grouped S) {st : List Step} {d : DirtySet} {dem : List (Nat × Nat)}
    (h : (logicalSteps S).zipIdx.foldlM (recalculateLogical B P (ownerOf S (logicalSteps S)))
      (S, {}, []) = .ok (st, d, dem)) :
    st.map sansCounts = S.map sansCounts ∧ RunsFit st := by
  refine foldlM_invariant (fun acc : List Step × DirtySet × List (Nat × Nat) =>
      acc.1.map sansCounts = S.map sansCounts ∧ RunsFit acc.1) h ⟨rfl, hg.runsFit⟩ ?_
  rintro ⟨st, d, dem⟩ ⟨l, index⟩ acc' hmem ⟨hst, hfit⟩ hstep
  have hl : l ∈ logicalSteps S := by
    obtain ⟨hi, hl⟩ := List.mem_zipIdx' hmem
    rw [hl]
    exact List.getElem_mem hi
  have hat := sansCounts_stepAt_of_map hst
  rcases recalculateLogical_cases hstep with hsame | ⟨q, hq, d', ha⟩
  · rw [hsame]
    exact ⟨hst, hfit⟩
  have hlenS : st.length = S.length := by simpa using congrArg List.length hst
  obtain ⟨hre, hruns, -, hshared⟩ := assign_spec ha (members_nodup hl) (members_ne_nil hl)
    fun m hm => hlenS ▸ (mem_members hl hm).1
  have hframe : acc'.1.map sansCounts = S.map sansCounts := hre.frame.trans hst
  have hat' := sansCounts_stepAt_of_map hframe
  refine ⟨hframe, fun p hp hcopy => ?_⟩
  have hout : (stepAt acc'.1 p).out = (stepAt S p).out := congrArg (·.out) (hat' p)
  by_cases hpl : p ∈ l.members
  · have hhead : (stepAt S (l.members.headD 0)).isCopy = false := (mem_members hl (headD_mem hl)).2
    have ho : 0 < (l.head S).out :=
      (hg.runs _ (stepAt_mem (mem_members hl (headD_mem hl)).1) hhead).1
    have houts : ∀ m ∈ l.members, (stepAt acc'.1 m).out = (l.head S).out := fun m hm =>
      (congrArg (·.out) (hat' m)).trans (groupView_out (groupView_eq_head hg hl hm))
    have hruns' : sumAt acc'.1 l.members Step.runs = runsFor q (l.head S).out := by
      rw [hruns, show (stepAt st (l.members.headD 0)).out = (l.head S).out from
        congrArg (·.out) (hat _)]
    rw [hout, groupView_out (groupView_eq_head hg hl hpl)]
    exact sharedRuns_fit ho houts hq hruns' hshared p hpl
  · rw [hre.runs p hpl, hre.quantity p hpl, hout,
      ← show (stepAt st p).out = (stepAt S p).out from congrArg (·.out) (hat p)]
    refine hfit p (by rw [hlenS, ← hre.length_eq.trans hlenS]; exact hp) ?_
    rw [show (stepAt st p).isCopy = (stepAt acc'.1 p).isCopy from
      congrArg (·.isCopy) ((hat p).trans (hat' p).symm)]
    exact hcopy

end Pass

section Heal

/-- Writing a total into the split members among `ms`: each records it, every other step is
left as it is, and no step changes its runs or whether it is split. -/
theorem foldl_recordTotal (total : Nat) {ms : List Nat} (hnd : ms.Nodup) (st : List Step) :
    let r := ms.foldl (fun steps m =>
        let s := stepAt steps m
        match s.split with
        | some info => steps.set m { s with split := some { info with total } }
        | none => steps) st
    (∀ m ∈ ms, ∀ info, (stepAt r m).split = some info → info.total = total) ∧
      (∀ p, p ∉ ms → stepAt r p = stepAt st p) ∧
      ∀ p, (stepAt r p).runs = (stepAt st p).runs ∧ (stepAt r p).isSplit = (stepAt st p).isSplit := by
  induction ms generalizing st with
  | nil => exact ⟨by simp, fun _ _ => rfl, fun _ => ⟨rfl, rfl⟩⟩
  | cons m ms ih =>
    obtain ⟨hm, hnd'⟩ := List.nodup_cons.1 hnd
    dsimp only
    rw [List.foldl_cons]
    set st₁ := (match (stepAt st m).split with
      | some info => st.set m { stepAt st m with split := some { info with total } }
      | none => st) with hst₁
    have hfirst : (∀ info, (stepAt st₁ m).split = some info → info.total = total) ∧
        (∀ p, p ≠ m → stepAt st₁ p = stepAt st p) ∧
        ∀ p, (stepAt st₁ p).runs = (stepAt st p).runs ∧
          (stepAt st₁ p).isSplit = (stepAt st p).isSplit := by
      rw [hst₁]
      split
      · rename_i info₀ hinfo
        have hlen : m < st.length := by
          by_contra hge
          have hdefault : (default : Step).split = none := rfl
          simp [stepAt, hge, hdefault] at hinfo
        refine ⟨fun info h => ?_, fun p hp => stepAt_set_of_ne hp _, fun p => ?_⟩
        · rw [stepAt_set_self hlen] at h
          cases h
          rfl
        · by_cases hpm : p = m
          · subst hpm
            rw [stepAt_set_self hlen]
            simp [isSplit, hinfo]
          · rw [stepAt_set_of_ne hpm]
            exact ⟨rfl, rfl⟩
      · rename_i hnone
        exact ⟨fun info h => (by rw [hnone] at h; cases h), fun _ _ => rfl, fun _ => ⟨rfl, rfl⟩⟩
    obtain ⟨hrest, hkeep, hcounts⟩ := ih hnd' st₁
    refine ⟨fun x hx info h => ?_, fun p hp => ?_, fun p => ?_⟩
    · rcases List.mem_cons.1 hx with rfl | hx
      · rw [hkeep x hm] at h
        exact hfirst.1 info h
      · exact hrest x hx info h
    · rw [List.mem_cons, not_or] at hp
      rw [hkeep p hp.2, hfirst.2.1 p hp.1]
    · rw [(hcounts p).1, (hcounts p).2]
      exact hfirst.2.2 p

/-- Recording group totals: every split member of a logical step whose first member is split
records the sum of the logical step's runs, and every step of no logical step is left as it
is. -/
theorem healGroups_totals {L : List Logical} (hnd : (L.flatMap (·.members)).Nodup)
    {st st' : List Step} (h : healGroups L st = .ok st')
    (hsplit : ∀ l ∈ L, ∀ m ∈ l.members, (stepAt st m).isSplit = true →
      (stepAt st (l.members.headD 0)).isSplit = true) :
    (∀ l ∈ L, ∀ m ∈ l.members, ∀ info, (stepAt st' m).split = some info →
        info.total = sumAt st l.members Step.runs) ∧
      ∀ p, p ∉ L.flatMap (·.members) → stepAt st' p = stepAt st p := by
  induction L generalizing st with
  | nil =>
    cases h
    exact ⟨by simp, fun _ _ => rfl⟩
  | cons l L ih =>
    unfold healGroups at h
    rw [List.foldlM_cons] at h
    obtain ⟨st₁, h₁, h⟩ := ok_of_bind h
    rw [List.flatMap_cons] at hnd
    obtain ⟨hl, hL, hdisj⟩ := List.nodup_append.1 hnd
    have hfirst : (∀ m ∈ l.members, ∀ info, (stepAt st₁ m).split = some info →
          info.total = sumAt st l.members Step.runs) ∧
        (∀ p, p ∉ l.members → stepAt st₁ p = stepAt st p) ∧
        ∀ p, (stepAt st₁ p).runs = (stepAt st p).runs ∧
          (stepAt st₁ p).isSplit = (stepAt st p).isSplit := by
      split at h₁
      · rename_i hhead
        cases h₁
        refine ⟨fun m hm info hinfo => ?_, fun _ _ => rfl, fun _ => ⟨rfl, rfl⟩⟩
        have hsplit' := hsplit l List.mem_cons_self m hm (by simp [isSplit, hinfo])
        rw [hsplit'] at hhead
        exact absurd hhead (by decide)
      · obtain ⟨total, htotal, h₁⟩ := ok_of_bind h₁
        cases h₁
        obtain ⟨hrec, hkeep, hcounts⟩ := foldl_recordTotal total hl st
        refine ⟨fun m hm info hinfo => ?_, hkeep, hcounts⟩
        rw [hrec m hm info hinfo, Count.eq_of_sum?_ok htotal]
        rfl
    obtain ⟨hrest, hkeep⟩ := ih hL h fun l' hl' m hm hms => by
      rw [(hfirst.2.2 _).2]
      exact hsplit l' (List.mem_cons_of_mem _ hl') m hm (by rwa [(hfirst.2.2 m).2] at hms)
    have hsum : ∀ ps, sumAt st₁ ps Step.runs = sumAt st ps Step.runs := fun ps =>
      sumAt_congr fun p _ => (hfirst.2.2 p).1
    refine ⟨fun l' hl' m hm info hinfo => ?_, fun p hp => ?_⟩
    · rcases List.mem_cons.1 hl' with rfl | hl'
      · have hnot : m ∉ L.flatMap (·.members) := fun hmem => hdisj m hm m hmem rfl
        rw [hkeep m hnot] at hinfo
        exact hfirst.1 m hm info hinfo
      · rw [hrest l' hl' m hm info hinfo, hsum]
    · rw [List.flatMap_cons, List.mem_append, not_or] at hp
      rw [hkeep p hp.2, hfirst.2.1 p hp.1]

end Heal

section Keys

variable {S : List Step}

/-- Positions whose steps carry one identifier are one, when identifiers are distinct. -/
theorem eq_of_id_eq (hids : (S.map (·.id)).Nodup) {p q : Nat} (hp : p < S.length)
    (hq : q < S.length) (h : (stepAt S p).id = (stepAt S q).id) : p = q := by
  have hp' : p < (S.map (·.id)).length := by simpa using hp
  have hq' : q < (S.map (·.id)).length := by simpa using hq
  have hpq : (S.map (·.id))[p] = (S.map (·.id))[q] := by
    simpa [stepAt, hp, hq] using h
  exact hids.getElem_inj_iff.1 hpq

/-- In grouped steps, the members of a logical step are exactly the steps of its first
member's recipe key. -/
theorem members_iff_key (hg : Grouped S) {l : Logical} (hl : l ∈ logicalSteps S) (p : Nat) :
    p ∈ l.members ↔ p < S.length ∧ (stepAt S p).key = (l.head S).key := by
  have h0 := headD_mem hl
  obtain ⟨h0len, h0copy⟩ := mem_members hl h0
  constructor
  · intro hp
    exact ⟨(mem_members hl hp).1, groupView_key (groupView_eq_head hg hl hp)⟩
  · rintro ⟨hp, hkey⟩
    obtain ⟨hgrp, hid⟩ := hg.keys _ (stepAt_mem hp) _ (stepAt_mem h0len) hkey
    have hcopy : (stepAt S p).isCopy = false := by
      have hact : (stepAt S p).activity = (l.head S).activity := congrArg RecipeKey.activity hkey
      unfold isCopy
      rw [hact]
      exact h0copy
    refine (mem_members_iff hl h0 p).2 ⟨hp, hcopy, ?_⟩
    cases hgp : (stepAt S p).group with
    | none => exact .inl (eq_of_id_eq hg.ids hp h0len (hid hgp))
    | some g => exact .inr ⟨hgp ▸ hgrp, by rw [← hgrp, hgp]; rfl⟩

/-- A sum over the positions of the steps that pass a test is the sum over those steps. -/
theorem sumAt_eq_sum_filter {st : List Step} {ps : List Nat} (hnd : ps.Nodup) {P : Step → Bool}
    (hps : ∀ p, p ∈ ps ↔ p < st.length ∧ P (stepAt st p) = true) (f : Step → Nat) :
    sumAt st ps f = ((st.filter P).map f).sum := by
  have hperm : ps.Perm ((List.range st.length).filter fun p => P (stepAt st p)) := by
    refine (List.perm_ext_iff_of_nodup hnd (List.nodup_range.filter _)).2 fun p => ?_
    rw [hps]
    simp
  have hsteps : (List.range st.length).map (stepAt st) = st := by
    apply List.ext_getElem (by simp)
    intro i h₁ h₂
    simp [stepAt, h₂]
  unfold sumAt
  rw [(hperm.map _).sum_eq]
  conv_rhs => rw [← hsteps, List.filter_map, List.map_map]
  rfl

/-- A recipe with a build step among grouped steps has a last build logical step, whose
members are the steps of the build key. -/
theorem lastBuild_eq_some (hg : Grouped S) {q r : Nat} (hq : q < S.length)
    (hkey : (stepAt S q).key = ⟨r, .build⟩) :
    ∃ b ∈ logicalSteps S, lastBuild S r = some b ∧
      ∀ p, p ∈ b.members ↔ p < S.length ∧ (stepAt S p).key = ⟨r, .build⟩ := by
  have hcopy : (stepAt S q).isCopy = false := by
    have hact : (stepAt S q).activity = .build := congrArg RecipeKey.activity hkey
    simp [isCopy, hact]
  obtain ⟨lq, hlq, hqm⟩ := exists_mem_members hq hcopy
  have hhead : (lq.head S).key = ⟨r, .build⟩ := ((members_iff_key hg hlq q).1 hqm).2.symm.trans hkey
  have hfilter : ∀ l ∈ logicalSteps S, l ∈ (logicalSteps S).filter (fun l =>
      (l.head S).activity == .build && (l.head S).recipe == r) ↔ (l.head S).key = ⟨r, .build⟩ := by
    intro l hl
    simp only [List.mem_filter, hl, true_and, Bool.and_eq_true, beq_iff_eq, key,
      RecipeKey.mk.injEq]
    exact And.comm
  obtain ⟨b, hb⟩ := Option.isSome_iff_exists.1 (List.getLast?_isSome.2
    (List.ne_nil_of_mem ((hfilter lq hlq).2 hhead)))
  have hbmem := List.mem_of_getLast? hb
  have hbl : b ∈ logicalSteps S := List.mem_of_mem_filter hbmem
  refine ⟨b, hbl, hb, fun p => ?_⟩
  rw [members_iff_key hg hbl p, (hfilter b hbl).1 hbmem]

end Keys

section Whole

variable {S : List Step}

theorem group_sansCounts (u : Step) : (sansCounts u).group = u.group := by
  cases h : u.split <;> simp [sansCounts, group, h]

theorem sansCounts_splitIndex (u : Step) : (sansCounts u).splitIndex = u.splitIndex := by
  cases h : u.split <;> simp [sansCounts, splitIndex, h]

theorem isSplit_sansCounts (u : Step) : (sansCounts u).isSplit = u.isSplit := by
  cases h : u.split <;> simp [sansCounts, isSplit, h]

theorem sansCounts_congr {α : Type} {s t : Step} (h : sansCounts s = sansCounts t) (f : Step → α)
    (hf : ∀ u, f (sansCounts u) = f u) : f s = f t := by
  rw [← hf s, h, hf t]

/-- Filtering and reading steps by what a view of them shows gives the same on lists of equal
views. -/
theorem filter_map_of_views {γ : Type} (v : Step → Step) (p : Step → Bool) (f : Step → γ)
    (hp : ∀ u, p (v u) = p u) (hf : ∀ u, f (v u) = f u) :
    ∀ {l l' : List Step}, l'.map v = l.map v → (l'.filter p).map f = (l.filter p).map f
  | [], [], _ => rfl
  | [], _ :: _, h => by cases h
  | _ :: _, [], h => by cases h
  | s :: l, s' :: l', h => by
    simp only [List.map_cons, List.cons.injEq] at h
    have hps : p s' = p s := by rw [← hp s', h.1, hp s]
    rw [List.filter_cons, List.filter_cons, hps]
    split
    · rw [List.map_cons, List.map_cons, show f s' = f s by rw [← hf s', h.1, hf s],
        filter_map_of_views v p f hp hf h.2]
    · exact filter_map_of_views v p f hp hf h.2

/-- Steps that agree with grouped steps but for their counts and group totals are grouped, when
their runs fit their quantities. -/
theorem Grouped.of_frame (hg : Grouped S) {st : List Step}
    (hst : st.map sansCounts = S.map sansCounts) (hfit : RunsFit st) : Grouped st := by
  have hlen : st.length = S.length := by simpa using congrArg List.length hst
  have hat := sansCounts_stepAt_of_map hst
  have hback : ∀ s ∈ st, ∃ p < S.length, s = stepAt st p ∧ sansCounts s = sansCounts (stepAt S p) := by
    intro s hs
    obtain ⟨p, hp, rfl⟩ := List.getElem_of_mem hs
    have hsp : st[p] = stepAt st p := by simp [stepAt, hp]
    exact ⟨p, hlen ▸ hp, hsp, hsp ▸ hat p⟩
  refine ⟨fun s hs hcopy => ?_, fun s hs t ht hsome hgrp => ?_, fun g => ?_,
    fun s hs t ht hkey => ?_, ?_⟩
  · obtain ⟨p, hp, rfl, hv⟩ := hback s hs
    have hcopyS : (stepAt S p).isCopy = false :=
      (sansCounts_congr hv isCopy fun _ => rfl).symm.trans hcopy
    refine ⟨?_, hfit p (hlen ▸ hp) hcopy⟩
    rw [sansCounts_congr hv out fun _ => rfl]
    exact (hg.runs _ (stepAt_mem hp) hcopyS).1
  · obtain ⟨p, hp, rfl, hv⟩ := hback s hs
    obtain ⟨q, hq, rfl, hw⟩ := hback t ht
    have hgs := sansCounts_congr hv group group_sansCounts
    have hgt := sansCounts_congr hw group group_sansCounts
    rw [sansCounts_congr hv groupView fun _ => rfl, sansCounts_congr hw groupView fun _ => rfl]
    exact hg.shared _ (stepAt_mem hp) _ (stepAt_mem hq) (hgs ▸ hsome) (hgs.symm.trans (hgrp.trans hgt))
  · have e := filter_map_of_views sansCounts (·.group == some g) splitIndex
      (fun u => by rw [group_sansCounts]) sansCounts_splitIndex hst
    have hl : (membersOf st g).length = (membersOf S g).length := by
      rw [← List.length_map (f := splitIndex), membersOf, e, List.length_map]
      rfl
    rw [hl, membersOf, e]
    exact hg.indices g
  · obtain ⟨p, hp, rfl, hv⟩ := hback s hs
    obtain ⟨q, hq, rfl, hw⟩ := hback t ht
    rw [sansCounts_congr hv group group_sansCounts, sansCounts_congr hw group group_sansCounts,
      sansCounts_congr hv Step.id fun _ => rfl, sansCounts_congr hw Step.id fun _ => rfl]
    refine hg.keys _ (stepAt_mem hp) _ (stepAt_mem hq) ?_
    rw [← sansCounts_congr hv key fun _ => rfl, ← sansCounts_congr hw key fun _ => rfl]
    exact hkey
  · have hids : st.map Step.id = S.map Step.id := by
      have hcomp : (Step.id : Step → Ident) = Step.id ∘ sansCounts := rfl
      rw [hcomp, ← List.map_map, ← List.map_map, hst]
    rw [hids]
    exact hg.ids

theorem followCopies_map {L : List Logical} {st st' : List Step} {d d' : DirtySet}
    (h : followCopies L st d = .ok (st', d')) : ∃ primaries, st' = st.map (followStep primaries) := by
  unfold followCopies at h
  obtain ⟨primaries, -, h⟩ := ok_of_bind h
  cases h
  exact ⟨primaries, rfl⟩

/-- A recalculation that succeeds on grouped steps whose copies are not split gives
well-formed steps, which differ from the steps it started from only in runs, quantities and
group totals. -/
theorem recalculate_wellFormed {B : RecipeBook} {P : List Ident} {r : Recalculation}
    (hg : Grouped S) (hcopies : ∀ s ∈ S, s.isCopy = true → s.split = none)
    (h : recalculate S B P = .ok r) :
    WellFormed r.steps ∧ r.steps.map sansCounts = S.map sansCounts := by
  unfold recalculate at h
  obtain ⟨⟨st₁, d₁, dem⟩, h₁, h⟩ := ok_of_bind h
  obtain ⟨st₂, h₂, h⟩ := ok_of_bind h
  obtain ⟨⟨st₃, d₃⟩, h₃, h⟩ := ok_of_bind h
  cases h
  show WellFormed st₃ ∧ st₃.map sansCounts = S.map sansCounts
  obtain ⟨hst₁, hfit₁⟩ := pass_fits hg h₁
  have hR₂ := healGroups_keeps_counts h₂ d₁
  have hst₂ : st₂.map sansCounts = S.map sansCounts := hR₂.frame.trans hst₁
  obtain ⟨hR₃, hcp⟩ := followCopies_spec h₃ hst₂
  have hst₃ : st₃.map sansCounts = S.map sansCounts := hR₃.frame.trans hst₂
  obtain ⟨primaries, hmap⟩ := followCopies_map h₃
  have hlen₂ : st₂.length = S.length := by simpa using congrArg List.length hst₂
  have hlen₃ : st₃.length = S.length := by simpa using congrArg List.length hst₃
  have hat₁ := sansCounts_stepAt_of_map hst₁
  have hat₂ := sansCounts_stepAt_of_map hst₂
  have hat₃ := sansCounts_stepAt_of_map hst₃
  -- a step that is not a copy leaves the last two stages with the runs and quantity the pass
  -- gave it, and only its group total changed
  have hkeep : ∀ p, (stepAt S p).isCopy = false → stepAt st₃ p = stepAt st₂ p := by
    intro p hp
    by_cases hlt : p < st₂.length
    · rw [hmap, stepAt_map_of_lt hlt, followStep_of_none (.inl ?_)]
      rw [sansCounts_congr (hat₂ p) isCopy fun _ => rfl]
      exact hp
    · simp [hmap, stepAt, hlt]
  have hruns : ∀ p, (stepAt S p).isCopy = false → (stepAt st₃ p).runs = (stepAt st₁ p).runs :=
    fun p hp => by rw [hkeep p hp, hR₂.runs p (by simp)]
  have hfit₃ : RunsFit st₃ := by
    intro p hp hcopy
    have hcopyS : (stepAt S p).isCopy = false :=
      (sansCounts_congr (hat₃ p) isCopy fun _ => rfl).symm.trans hcopy
    rw [hkeep p hcopyS, hR₂.runs p (by simp), hR₂.quantity p (by simp),
      sansCounts_congr (hat₂ p) out fun _ => rfl, ← sansCounts_congr (hat₁ p) out fun _ => rfl]
    have hlen₁ : st₁.length = S.length := by simpa using congrArg List.length hst₁
    refine hfit₁ p (by omega) ?_
    rw [sansCounts_congr (hat₁ p) isCopy fun _ => rfl]
    exact hcopyS
  have hG₃ := hg.of_frame hst₃ hfit₃
  refine ⟨⟨hG₃, fun s hs info hinfo => ?_, fun c hc hcopy hb => ?_⟩, hst₃⟩
  · obtain ⟨p, hp, rfl⟩ := List.getElem_of_mem hs
    have hsp : st₃[p] = stepAt st₃ p := by simp [stepAt, hp]
    rw [hsp] at hinfo
    have hpS : p < S.length := hlen₃ ▸ hp
    have hgrp : ∀ q, (stepAt st₃ q).group = (stepAt S q).group := fun q =>
      sansCounts_congr (hat₃ q) group group_sansCounts
    have hgp : (stepAt S p).group = some info.group := by
      rw [← hgrp, group, hinfo]
      rfl
    have hnocopy : ∀ q, (stepAt S q).group.isSome = true → q < S.length →
        (stepAt S q).isCopy = false := by
      intro q hq hqlen
      cases hc : (stepAt S q).isCopy
      · rfl
      · rw [group, hcopies _ (stepAt_mem hqlen) hc] at hq
        cases hq
    have hpcopy := hnocopy p (by rw [hgp]; rfl) hpS
    obtain ⟨l, hl, hpl⟩ := exists_mem_members hpS hpcopy
    have hsplit₁ : ∀ l ∈ logicalSteps S, ∀ m ∈ l.members, (stepAt st₁ m).isSplit = true →
        (stepAt st₁ (l.members.headD 0)).isSplit = true := by
      intro l hl m hm hms
      rw [sansCounts_congr (hat₁ _) isSplit isSplit_sansCounts] at hms ⊢
      rcases ((mem_members_iff hl (headD_mem hl) m).1 hm).2.2 with rfl | ⟨hgm, hsome⟩
      · exact hms
      · simpa [isSplit, group] using hsome
    have htotal := (healGroups_totals (nodup_flatMap_members S) h₂ hsplit₁).1 l hl p hpl info
      (by rw [← hkeep p hpcopy]; exact hinfo)
    rw [htotal, ← sumAt_congr fun q hq => hruns q (mem_members hl hq).2]
    refine sumAt_eq_sum_filter (members_nodup hl) (fun q => ?_) Step.runs
    rw [mem_members_iff hl hpl q, hlen₃, beq_iff_eq, hgrp q, hgp]
    constructor
    · rintro ⟨hq, -, rfl | ⟨hgq, -⟩⟩
      · exact ⟨hq, hgp⟩
      · exact ⟨hq, hgq⟩
    · rintro ⟨hq, hgq⟩
      exact ⟨hq, hnocopy q (by rw [hgq]; rfl) hq, .inr ⟨hgq, rfl⟩⟩
  · obtain ⟨p, hp, rfl⟩ := List.getElem_of_mem hc
    have hsp : st₃[p] = stepAt st₃ p := by simp [stepAt, hp]
    rw [hsp] at hcopy hb ⊢
    obtain ⟨b, hb, hbk⟩ := hb
    obtain ⟨q, hq, rfl⟩ := List.getElem_of_mem hb
    have hsq : st₃[q] = stepAt st₃ q := by simp [stepAt, hq]
    rw [hsq] at hbk
    have hkey : ∀ x, (stepAt st₃ x).key = (stepAt S x).key := fun x =>
      sansCounts_congr (hat₃ x) key fun _ => rfl
    have hrecipe : (stepAt st₂ p).recipe = (stepAt st₃ p).recipe :=
      (sansCounts_congr (hat₂ p) recipe fun _ => rfl).trans
        (sansCounts_congr (hat₃ p) recipe fun _ => rfl).symm
    obtain ⟨bl, hblL, hbl, hmem⟩ := lastBuild_eq_some hg (hlen₃ ▸ hq) ((hkey q).symm.trans hbk)
    have hvalue := hcp p (hlen₂ ▸ hlen₃ ▸ hp) (by
      rw [sansCounts_congr (hat₂ p) isCopy fun _ => rfl,
        ← sansCounts_congr (hat₃ p) isCopy fun _ => rfl]
      exact hcopy)
    rw [sansCounts_congr (hat₂ p) recipe fun _ => rfl,
      ← sansCounts_congr (hat₃ p) recipe fun _ => rfl, hbl] at hvalue
    have hbmem : ∀ x ∈ bl.members, (stepAt S x).isCopy = false := fun x hx => by
      have hact : (stepAt S x).activity = .build := congrArg RecipeKey.activity ((hmem x).1 hx).2
      simp [isCopy, hact]
    have hsum : bl.sumOf st₂ Step.runs = runsOfKey st₃ ⟨(stepAt st₃ p).recipe, .build⟩ := by
      rw [Logical.sumOf, ← sumAt_congr fun x hx => congrArg Step.runs (hkeep x (hbmem x hx))]
      refine sumAt_eq_sum_filter (members_nodup hblL) (fun x => ?_) Step.runs
      rw [hmem x, hlen₃, beq_iff_eq, hkey x]
    exact ⟨hvalue.1.trans hvalue.2.symm, hvalue.1.trans hsum⟩

end Whole

end Step

end Fabrication
