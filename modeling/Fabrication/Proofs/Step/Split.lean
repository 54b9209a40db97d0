import Fabrication.Proofs.Step.WellFormed
import Fabrication.Proofs.Step.Schedule

/-!
# Splitting keeps plans well formed

A step of `R` runs and `Q` units is split into members that take the runs part by part; each
member but the last makes what its runs make out of what is left of `Q`, the last makes all
that is left. When `R` are the runs `Q` needs, every member has the runs its units need
(`splitStep_spec`): the units handed out stay what the runs handed out make, up to `Q`.

The group takes the next fresh identifier `fresh a` and the members after the first take
`fresh (a + 1), fresh (a + 2), …`, so the identifiers a split draws lie in its own stretch of
the supply, after every identifier made before. Splitting the steps of a well-formed plan
whose identifiers were all made before therefore gives a well-formed plan again
(`splitExcept_wellFormed`).
-/

namespace Fabrication

/-- An identifier made before the supply reached `n`: one the caller gave, or a fresh one
numbered below `n`. -/
def Ident.Before (n : Nat) : Ident → Prop
  | .given _ => True
  | .fresh k => k < n

theorem Ident.Before.mono {g : Ident} {n n' : Nat} (h : g.Before n) (hn : n ≤ n') : g.Before n' := by
  cases g with
  | given => trivial
  | fresh k => exact Nat.lt_of_lt_of_le h hn

theorem Ident.Before.ne_fresh {g : Ident} {n k : Nat} (h : g.Before n) (hk : n ≤ k) :
    g ≠ .fresh k := by
  rintro rfl
  exact absurd h (Nat.not_lt.2 hk)

namespace Step

/-- A step whose identifier and split group were made before the supply reached `n`. -/
def Before (n : Nat) (s : Step) : Prop := s.id.Before n ∧ ∀ g ∈ s.group, g.Before n

theorem Before.mono {s : Step} {n n' : Nat} (h : s.Before n) (hn : n ≤ n') : s.Before n' :=
  ⟨h.1.mono hn, fun g hg => (h.2 g hg).mono hn⟩

/-- Steps made before the supply reached `n`: their identifiers and split groups were drawn
before `n`, no split group is named like one of the steps, and copies are not split. -/
structure Minted (n : Nat) (steps : List Step) : Prop where
  before : ∀ s ∈ steps, s.Before n
  apart : ∀ s ∈ steps, ∀ t ∈ steps, t.group ≠ some s.id
  copies : ∀ s ∈ steps, s.isCopy = true → s.split = none

theorem Minted.mono {n n' : Nat} {steps : List Step} (h : Minted n steps) (hn : n ≤ n') :
    Minted n' steps :=
  ⟨fun s hs => (h.before s hs).mono hn, h.apart, h.copies⟩

theorem Minted.perm {n : Nat} {steps steps' : List Step} (hp : steps.Perm steps')
    (h : Minted n steps) : Minted n steps' :=
  ⟨fun s hs => h.before s (hp.mem_iff.2 hs),
    fun s hs t ht => h.apart s (hp.mem_iff.2 hs) t (hp.mem_iff.2 ht),
    fun s hs => h.copies s (hp.mem_iff.2 hs)⟩

/-- What freshness reads of a step: its identifier, its activity, its split group and whether
it is split. -/
def mintView (s : Step) : Ident × Activity × Option Ident × Bool :=
  (s.id, s.activity, s.group, s.isSplit)

/-- Steps that agree with steps made before a mark on what freshness reads were made before it. -/
theorem Minted.of_mintViews {n : Nat} {steps steps' : List Step}
    (h : steps'.map mintView = steps.map mintView) (hm : Minted n steps) : Minted n steps' := by
  have hback : ∀ s' ∈ steps', ∃ s ∈ steps, s.id = s'.id ∧ s.activity = s'.activity ∧
      s.group = s'.group ∧ s.isSplit = s'.isSplit := by
    intro s' hs'
    have hmem : mintView s' ∈ steps.map mintView := h ▸ List.mem_map_of_mem hs'
    obtain ⟨s, hs, hv⟩ := List.mem_map.1 hmem
    simp only [mintView, Prod.mk.injEq] at hv
    exact ⟨s, hs, hv⟩
  refine ⟨fun s' hs' => ?_, fun s' hs' t' ht' => ?_, fun s' hs' hcopy => ?_⟩
  · obtain ⟨s, hs, hid, -, hgroup, -⟩ := hback s' hs'
    have hb := hm.before s hs
    rw [Before, hid, hgroup] at hb
    exact hb
  · obtain ⟨s, hs, hid, -, -, -⟩ := hback s' hs'
    obtain ⟨t, ht, -, -, hgroup, -⟩ := hback t' ht'
    rw [← hid, ← hgroup]
    exact hm.apart s hs t ht
  · obtain ⟨s, hs, -, hact, -, hsplit⟩ := hback s' hs'
    have hnone := hm.copies s hs (by simpa [isCopy, hact] using hcopy)
    have hs'split : s'.isSplit = false := by rw [← hsplit]; simp [isSplit, hnone]
    simpa [isSplit] using hs'split

theorem mintViews_of_views {steps steps' : List Step} (h : steps'.map wfView = steps.map wfView) :
    steps'.map mintView = steps.map mintView := by
  have hcomp : (mintView : Step → _) = mintView ∘ wfView := rfl
  rw [hcomp, ← List.map_map, ← List.map_map, h]

/-- The identifier of member `i` of the group `fresh a` split from `st`. -/
def memberId (st : Step) (a i : Nat) : Ident := if i = 0 then st.id else .fresh (a + i)

/-- Member `x.2` of the group `fresh a` split from `st`, with `x.1` runs: its units and target
are its own, all else is the step's. -/
def IsMember (st : Step) (a : Nat) (x : Nat × Nat) (m : Step) : Prop :=
  m = { st with id := memberId st a x.2, runs := x.1, quantity := m.quantity, target := m.target,
                split := some ⟨.fresh a, x.2, st.runs⟩ }

section IsMember

variable {st m : Step} {a : Nat} {x : Nat × Nat}

theorem IsMember.id (h : IsMember st a x m) : m.id = memberId st a x.2 := by rw [h]
theorem IsMember.runs (h : IsMember st a x m) : m.runs = x.1 := by rw [h]
theorem IsMember.out (h : IsMember st a x m) : m.out = st.out := by rw [h]
theorem IsMember.split (h : IsMember st a x m) : m.split = some ⟨.fresh a, x.2, st.runs⟩ := by
  rw [h]
theorem IsMember.group (h : IsMember st a x m) : m.group = some (.fresh a) := by
  rw [h]; rfl
theorem IsMember.key (h : IsMember st a x m) : m.key = st.key := by rw [h]; rfl
theorem IsMember.isCopy (h : IsMember st a x m) : m.isCopy = st.isCopy := by rw [h]; rfl
theorem IsMember.groupView (h : IsMember st a x m) : m.groupView = st.groupView := by rw [h]; rfl
theorem IsMember.splitIndex (h : IsMember st a x m) : m.splitIndex = x.2 := by rw [h]; rfl

end IsMember

/-- The members of the group `fresh a` split from `st`, taking the runs `parts` in order, each
with the runs its units need. -/
def SplitInto (st : Step) (a : Nat) (parts : List Nat) (members : List Step) : Prop :=
  List.Forall₂ (fun x m => IsMember st a x m ∧ m.runs = runsFor m.quantity st.out)
    parts.zipIdx members

section SplitInto

variable {st : Step} {a : Nat} {parts : List Nat} {ys : List Step}

theorem SplitInto.mem (h : SplitInto st a parts ys) {m : Step} (hm : m ∈ ys) :
    ∃ i < parts.length, IsMember st a (parts[i]!, i) m ∧ m.runs = runsFor m.quantity st.out := by
  obtain ⟨⟨r, i⟩, hx, hmem, hruns⟩ := exists_of_forall₂_right h hm
  obtain ⟨hi, hr⟩ := List.mem_zipIdx' hx
  refine ⟨i, hi, ?_, hruns⟩
  rw [show parts[i]! = r by simp [hi, hr]]
  exact hmem

theorem SplitInto.length_eq (h : SplitInto st a parts ys) : ys.length = parts.length := by
  simpa using (List.Forall₂.length_eq h).symm

theorem SplitInto.map_splitIndex (h : SplitInto st a parts ys) :
    ys.map splitIndex = List.range parts.length := by
  have := map_eq_of_forall₂ (f := Prod.snd) (g := splitIndex) (h.imp fun x m hxm =>
    (hxm.1.splitIndex).symm)
  rw [← this]
  simp [List.zipIdx_map_snd, List.range_eq_range']

theorem SplitInto.map_runs (h : SplitInto st a parts ys) : ys.map Step.runs = parts := by
  have := map_eq_of_forall₂ (f := Prod.fst) (g := Step.runs) (h.imp fun x m hxm =>
    (hxm.1.runs).symm)
  rw [← this, List.zipIdx_map_fst]

end SplitInto

/-- The fold that makes the members of a split group: `F` puts a member in front, with the
step's identifier at index zero and the next fresh one otherwise, and with the units its
runs make out of what is left, all that is left at index `last`. Started after `R` runs with
the units those make, on parts that hand out the rest of the runs `Q` needs, every member
has the runs its units need. -/
theorem foldlM_members (st : Step) (a last : Nat)
    {F : List Step × Nat → Nat × Nat → Planning (List Step × Nat)}
    (hF : ∀ acc x c ρ ρ', (F acc x).run ρ = .ok (c, ρ') → ∃ m,
      c = (m :: acc.1, acc.2 + m.quantity) ∧
      m = { st with id := if x.2 = 0 then st.id else .fresh ρ.next, runs := x.1,
                    quantity := m.quantity, target := m.target,
                    split := some ⟨.fresh a, x.2, st.runs⟩ } ∧
      m.quantity = (if x.2 = last then st.quantity - acc.2
        else Nat.min (x.1 * st.out) (st.quantity - acc.2)) ∧
      ρ'.next = (if x.2 = 0 then ρ.next else ρ.next + 1))
    (hout : 0 < st.out) :
    ∀ (ps : List Nat) (k R : Nat) {acc r : List Step × Nat} {σ τ : IdSupply},
      ((ps.zipIdx k).foldlM F acc).run σ = .ok (r, τ) →
      acc.2 = Nat.min (st.out * R) st.quantity → R + ps.sum = runsFor st.quantity st.out →
      k + ps.length = last + 1 → σ.next = a + Nat.max k 1 →
      ∃ ms, r.1 = ms.reverse ++ acc.1 ∧
        List.Forall₂ (fun x m => IsMember st a x m ∧ m.runs = runsFor m.quantity st.out)
          (ps.zipIdx k) ms ∧
        τ.next = a + Nat.max (k + ps.length) 1
  | [], k, R, acc, r, σ, τ, h, _, _, _, hσ => by
    cases h
    exact ⟨[], by simp, .nil, by simpa using hσ⟩
  | p :: ps, k, R, acc, r, σ, τ, h, hacc, hR, hk, hσ => by
    rw [List.zipIdx_cons, List.foldlM_cons] at h
    obtain ⟨c, ρ, hc, h⟩ := Planning.run_bind_ok h
    obtain ⟨m, rfl, hm, hq, hρ⟩ := hF acc (p, k) c σ ρ hc
    dsimp only at hm hq hρ
    have hQ : Nat.min (st.out * R) st.quantity ≤ st.quantity := Nat.min_le_right _ _
    have hlast : k = last ↔ ps = [] := by
      rw [← List.length_eq_zero_iff]
      simp only [List.length_cons] at hk
      omega
    have hsum : R + p + ps.sum = runsFor st.quantity st.out := by
      rw [List.sum_cons] at hR
      omega
    have hassigned : acc.2 + m.quantity = Nat.min (st.out * (R + p)) st.quantity := by
      by_cases hl : k = last
      · rw [if_pos hl] at hq
        have hps := hlast.1 hl
        rw [hps, List.sum_nil, Nat.add_zero] at hsum
        have hmade : st.quantity ≤ st.out * (R + p) :=
          (runsFor_le_iff hout).1 (Nat.le_of_eq hsum.symm)
        rw [hq, hacc]
        simp only [Nat.min_eq_min] at hQ ⊢
        omega
      · rw [if_neg hl] at hq
        rw [hq, hacc, share_add]
    have hruns : m.runs = runsFor m.quantity st.out := by
      by_cases hl : k = last
      · rw [if_pos hl] at hq
        rw [hlast.1 hl, List.sum_nil, Nat.add_zero] at hsum
        rw [hq, hacc, runsFor_rest hout (by omega), hm]
        dsimp only
        omega
      · rw [if_neg hl] at hq
        rw [hq, hacc, runsFor_share hout (by omega), hm]
    have hnext : ρ.next = a + Nat.max (k + 1) 1 := by
      rw [hρ, hσ]
      split <;> simp only [Nat.max_eq_max] <;> omega
    obtain ⟨ms, hr, hms, hτ⟩ := foldlM_members st a last hF hout ps (k + 1) (R + p) h hassigned
      hsum (by simp only [List.length_cons] at hk; omega) hnext
    refine ⟨m :: ms, by simp [hr], .cons ⟨?_, hruns⟩ hms, by
      rw [hτ, List.length_cons, Nat.add_assoc, Nat.add_comm 1]⟩
    have hid : (if k = 0 then st.id else Ident.fresh σ.next) = memberId st a k := by
      unfold memberId
      split
      · rfl
      · rename_i hk0
        rw [hσ, Nat.max_eq_max, Nat.max_eq_left (Nat.one_le_iff_ne_zero.2 hk0)]
    rw [IsMember, ← hid]
    exact hm

/-- The members of a split group, in index order. The group is the next fresh identifier
`fresh a`, the members after the first take the ones after it, and each member has the runs
its units need when the step has. -/
theorem splitStep_spec {st : Step} {parts : List Nat} {σ τ : IdSupply} {members : List Step}
    (hparts : parts ≠ []) (hsum : parts.sum = st.runs) (hout : 0 < st.out)
    (hruns : st.runs = runsFor st.quantity st.out)
    (h : (Scheduler.splitStep st parts).run σ = .ok (members, τ)) :
    List.Forall₂ (fun x m => IsMember st σ.next x m ∧ m.runs = runsFor m.quantity st.out)
      parts.zipIdx members ∧ τ.next = σ.next + parts.length := by
  unfold Scheduler.splitStep at h
  obtain ⟨group, ρ, hg, h⟩ := Planning.run_bind_ok h
  rw [Planning.run_mint] at hg
  cases hg
  obtain ⟨⟨acc, assigned⟩, ρ', hfold, h⟩ := Planning.run_bind_ok h
  cases h
  have hlen : 0 < parts.length := List.length_pos_iff.2 hparts
  obtain ⟨ms, hacc, hms, hτ⟩ := foldlM_members st σ.next (parts.length - 1)
    (fun acc x c ρ₁ ρ₂ hx => by
      obtain ⟨members, assigned⟩ := acc
      obtain ⟨runs, index⟩ := x
      dsimp only at hx ⊢
      split at hx
      all_goals
        rename_i h0
        obtain ⟨id, ρ₃, hid, hx⟩ := Planning.run_bind_ok hx
      on_goal 1 =>
        have hid' : id = (if index = 0 then st.id else .fresh ρ₁.next) ∧
            ρ₃.next = (if index = 0 then ρ₁.next else ρ₁.next + 1) := by
          cases hid
          simp [beq_iff_eq.1 h0]
      on_goal 2 =>
        have hid' : id = (if index = 0 then st.id else .fresh ρ₁.next) ∧
            ρ₃.next = (if index = 0 then ρ₁.next else ρ₁.next + 1) := by
          rw [Planning.run_mint] at hid
          cases hid
          simp [show index ≠ 0 by simpa using h0]
      all_goals
        obtain ⟨rfl, hρ₃⟩ := hid'
        split at hx
        · rename_i hl
          obtain ⟨q, ρ₄, hq, hx⟩ := Planning.run_bind_ok hx
          cases hq
          cases hx
          exact ⟨_, rfl, rfl, by simp [beq_iff_eq.1 hl], hρ₃⟩
        · rename_i hl
          obtain ⟨made, ρ₅, hmade, hx⟩ := Planning.run_bind_ok hx
          obtain ⟨hmul, hρ₅⟩ := Planning.run_ofFault_ok hmade
          obtain ⟨q, ρ₄, hq, hx⟩ := Planning.run_bind_ok hx
          cases hq
          cases hx
          exact ⟨_, rfl, rfl, by simp [show index ≠ parts.length - 1 by simpa using hl,
            Count.eq_of_mul?_ok hmul], by rw [hρ₅]; exact hρ₃⟩)
    hout parts 0 0 hfold (by simp) (by rw [Nat.zero_add, hsum, hruns]) (by omega) rfl
  have hmembers : acc.reverse = ms := by simpa using congrArg List.reverse hacc
  refine ⟨hmembers ▸ hms, ?_⟩
  rw [hτ, Nat.zero_add, Nat.max_eq_max, Nat.max_eq_left hlen]

section Replace

variable {st : Step} {rest ys : List Step} {parts : List Nat} {a : Nat}

theorem memberId_ne_fresh (hst : st.id.Before a) (i : Nat) : memberId st a i ≠ .fresh a := by
  unfold memberId
  split
  · exact hst.ne_fresh (Nat.le_refl a)
  · rename_i hi
    intro h
    injection h with h
    omega

theorem memberId_before (hst : st.id.Before a) {i n : Nat} (hi : i < n) :
    (memberId st a i).Before (a + n) := by
  unfold memberId
  split
  · exact hst.mono (Nat.le_add_right a n)
  · show a + i < a + n
    omega

theorem memberId_injective (hst : st.id.Before a) {i j : Nat}
    (h : memberId st a i = memberId st a j) : i = j := by
  unfold memberId at h
  split at h <;> split at h
  · omega
  · exact absurd h (hst.ne_fresh (Nat.le_add_right a j))
  · exact absurd h.symm (hst.ne_fresh (Nat.le_add_right a i))
  · injection h with h
    omega

/-- The group split from a step is made of its members alone. -/
theorem membersOf_splitInto_fresh (hys : SplitInto st a parts ys)
    (hrest : ∀ t ∈ rest, t.Before a) : membersOf (ys ++ rest) (.fresh a) = ys := by
  rw [membersOf, List.filter_append]
  have hys' : ys.filter (·.group == some (.fresh a)) = ys := List.filter_eq_self.2 fun m hm => by
    obtain ⟨i, -, hmem, -⟩ := hys.mem hm
    simp [hmem.group]
  have hrest' : rest.filter (·.group == some (.fresh a)) = [] := List.filter_eq_nil_iff.2
    fun t ht => by
      cases hg : t.group with
      | none => simp
      | some g =>
        have := ((hrest t ht).2 g hg).ne_fresh (Nat.le_refl a)
        simp [this]
  rw [hys', hrest', List.append_nil]

/-- Any other group keeps its members. -/
theorem membersOf_splitInto_other (hys : SplitInto st a parts ys) (hsplit : st.split = none)
    {g : Ident} (hg : g ≠ .fresh a) : membersOf (ys ++ rest) g = membersOf (st :: rest) g := by
  rw [membersOf, membersOf, List.filter_append]
  have hys' : ys.filter (·.group == some g) = [] := List.filter_eq_nil_iff.2 fun m hm => by
    obtain ⟨i, -, hmem, -⟩ := hys.mem hm
    simp [hmem.group, Ne.symm hg]
  rw [hys', List.nil_append, List.filter_cons_of_neg (by simp [group, hsplit])]

theorem runsOfKey_splitInto (hys : SplitInto st a parts ys) (hsum : parts.sum = st.runs)
    (k : RecipeKey) : runsOfKey (ys ++ rest) k = runsOfKey (st :: rest) k := by
  have hkeys : ∀ m ∈ ys, m.key = st.key := fun m hm => by
    obtain ⟨i, -, hmem, -⟩ := hys.mem hm
    exact hmem.key
  unfold runsOfKey
  rw [List.filter_append, List.map_append, List.sum_append, ← List.singleton_append,
    List.filter_append, List.map_append, List.sum_append]
  congr 1
  by_cases hk : st.key = k
  · rw [List.filter_eq_self.2 fun m hm => by simp [hkeys m hm, hk], hys.map_runs, hsum]
    simp [hk]
  · rw [List.filter_eq_nil_iff.2 fun m hm => by simp [hkeys m hm, hk]]
    simp [hk]

/-- Replacing an unsplit step that is no copy by the members of a group split from it with
the supply's next identifiers keeps the steps well formed, and made before the supply's new
mark. -/
theorem WellFormed.splitInto (hw : WellFormed (st :: rest)) (hm : Minted a (st :: rest))
    (hcopy : st.isCopy = false) (hsplit : st.split = none) (hparts : parts ≠ [])
    (hsum : parts.sum = st.runs) (hys : SplitInto st a parts ys) :
    WellFormed (ys ++ rest) ∧ Minted (a + parts.length) (ys ++ rest) := by
  have hst : st.Before a := hm.before st List.mem_cons_self
  have hrest : ∀ t ∈ rest, t.Before a := fun t ht => hm.before t (List.mem_cons_of_mem _ ht)
  have hlen : 0 < parts.length := List.length_pos_iff.2 hparts
  have hnokey : ∀ t ∈ rest, t.key ≠ st.key := by
    intro t ht hk
    obtain ⟨-, hid⟩ := hw.keys st List.mem_cons_self t (List.mem_cons_of_mem _ ht) hk.symm
    have hnd := hw.ids
    rw [List.map_cons, List.nodup_cons] at hnd
    exact hnd.1 (hid (by simp [group, hsplit]) ▸ List.mem_map_of_mem ht)
  have hgrest : ∀ t ∈ rest, t.group ≠ some (.fresh a) := fun t ht hg =>
    ((hrest t ht).2 _ hg).ne_fresh (Nat.le_refl a) rfl
  have hmembers := membersOf_splitInto_fresh hys hrest
  refine ⟨⟨⟨fun s hs hc => ?_, fun s hs t ht hsome hgrp => ?_, fun g => ?_,
    fun s hs t ht hk => ?_, ?_⟩, fun s hs info hinfo => ?_, fun c hc hcc hb => ?_⟩, ?_⟩
  · rcases List.mem_append.1 hs with hs | hs
    · obtain ⟨i, -, hmem, hruns⟩ := hys.mem hs
      rw [hmem.out]
      exact ⟨(hw.runs st List.mem_cons_self hcopy).1, hruns⟩
    · exact hw.runs s (List.mem_cons_of_mem _ hs) hc
  · rcases List.mem_append.1 hs with hs | hs <;> rcases List.mem_append.1 ht with ht | ht
    · obtain ⟨i, -, hi, -⟩ := hys.mem hs
      obtain ⟨j, -, hj, -⟩ := hys.mem ht
      rw [hi.groupView, hj.groupView]
    · obtain ⟨i, -, hi, -⟩ := hys.mem hs
      exact absurd (hgrp.symm.trans hi.group) (hgrest t ht)
    · obtain ⟨j, -, hj, -⟩ := hys.mem ht
      exact absurd (hgrp.trans hj.group) (hgrest s hs)
    · exact hw.shared s (List.mem_cons_of_mem _ hs) t (List.mem_cons_of_mem _ ht) hsome hgrp
  · by_cases hg : g = .fresh a
    · subst hg
      rw [hmembers, hys.map_splitIndex, hys.length_eq]
    · rw [membersOf_splitInto_other hys hsplit hg]
      exact hw.indices g
  · rcases List.mem_append.1 hs with hs | hs <;> rcases List.mem_append.1 ht with ht | ht
    · obtain ⟨i, -, hi, -⟩ := hys.mem hs
      obtain ⟨j, -, hj, -⟩ := hys.mem ht
      rw [hi.group, hj.group]
      exact ⟨rfl, fun h => by cases h⟩
    · obtain ⟨i, -, hi, -⟩ := hys.mem hs
      exact absurd (hk.symm.trans hi.key) (hnokey t ht)
    · obtain ⟨j, -, hj, -⟩ := hys.mem ht
      exact absurd (hk.trans hj.key) (hnokey s hs)
    · exact hw.keys s (List.mem_cons_of_mem _ hs) t (List.mem_cons_of_mem _ ht) hk
  · have hnd := hw.ids
    rw [List.map_cons, List.nodup_cons] at hnd
    have hids : ys.map Step.id = (List.range parts.length).map (memberId st a) := by
      rw [← hys.map_splitIndex, List.map_map]
      refine List.map_congr_left fun m hm => ?_
      obtain ⟨i, -, hi, -⟩ := hys.mem hm
      rw [Function.comp_apply, hi.splitIndex, hi.id]
    rw [List.map_append, List.nodup_append, hids]
    refine ⟨(List.nodup_range).map (fun i j h => memberId_injective hst.1 h), hnd.2, ?_⟩
    intro x hx y hy hxy
    obtain ⟨i, hi, rfl⟩ := List.mem_map.1 hx
    obtain ⟨t, ht, rfl⟩ := List.mem_map.1 hy
    unfold memberId at hxy
    split at hxy
    · exact hnd.1 (hxy ▸ List.mem_map_of_mem ht)
    · exact (hrest t ht).1.ne_fresh (by omega) hxy.symm
  · rcases List.mem_append.1 hs with hs | hs
    · obtain ⟨i, -, hi, -⟩ := hys.mem hs
      rw [hi.split] at hinfo
      cases hinfo
      rw [hmembers, hys.map_runs, hsum]
    · have hg : info.group ≠ .fresh a := fun h =>
        hgrest s hs (by simp [group, hinfo, h])
      rw [membersOf_splitInto_other hys hsplit hg]
      exact hw.totals s (List.mem_cons_of_mem _ hs) info hinfo
  · have hc' : c ∈ rest := by
      rcases List.mem_append.1 hc with hc' | hc'
      · obtain ⟨i, -, hi, -⟩ := hys.mem hc'
        rw [hi.isCopy, hcopy] at hcc
        cases hcc
      · exact hc'
    obtain ⟨b, hb, hbk⟩ := hb
    have hb' : ∃ b ∈ st :: rest, b.key = ⟨c.recipe, .build⟩ := by
      rcases List.mem_append.1 hb with hb | hb
      · obtain ⟨i, -, hi, -⟩ := hys.mem hb
        exact ⟨st, List.mem_cons_self, hi.key ▸ hbk⟩
      · exact ⟨b, List.mem_cons_of_mem _ hb, hbk⟩
    rw [runsOfKey_splitInto hys hsum]
    exact hw.copies c (List.mem_cons_of_mem _ hc') hcc hb'
  · refine ⟨fun s hs => ?_, fun s hs t ht => ?_, fun s hs hc => ?_⟩
    · rcases List.mem_append.1 hs with hs | hs
      · obtain ⟨i, hi, hmem, -⟩ := hys.mem hs
        refine ⟨hmem.id ▸ memberId_before hst.1 hi, fun g hg => ?_⟩
        rw [hmem.group] at hg
        cases hg
        show a < a + parts.length
        omega
      · exact (hrest s hs).mono (Nat.le_add_right a _)
    · rcases List.mem_append.1 ht with ht | ht
      · obtain ⟨j, -, hj, -⟩ := hys.mem ht
        rw [hj.group]
        intro h
        injection h with h
        rcases List.mem_append.1 hs with hs | hs
        · obtain ⟨i, -, hi, -⟩ := hys.mem hs
          rw [hi.id] at h
          exact memberId_ne_fresh hst.1 i h.symm
        · exact (hrest s hs).1.ne_fresh (Nat.le_refl a) h.symm
      · rcases List.mem_append.1 hs with hs | hs
        · obtain ⟨i, -, hi, -⟩ := hys.mem hs
          intro hg
          rw [hi.id] at hg
          unfold memberId at hg
          split at hg
          · exact hm.apart st List.mem_cons_self t (List.mem_cons_of_mem _ ht) hg
          · exact ((hrest t ht).2 _ hg).ne_fresh (by omega) rfl
        · exact hm.apart s (List.mem_cons_of_mem _ hs) t (List.mem_cons_of_mem _ ht)
    · rcases List.mem_append.1 hs with hs | hs
      · obtain ⟨i, -, hi, -⟩ := hys.mem hs
        rw [hi.isCopy, hcopy] at hc
        cases hc
      · exact hm.copies s (List.mem_cons_of_mem _ hs) hc

/-- Only a step that is no copy and not yet split is split. -/
theorem splits_eq_some {ceiling d : Nat} {keep : List Ident} {step : Step}
    (h : Scheduler.splits ceiling keep step = some d) : step.isCopy = false ∧ step.split = none := by
  unfold Scheduler.splits at h
  split at h
  · split at h
    · rename_i hcond
      simp only [Bool.and_eq_true, Bool.not_eq_eq_eq_not, Bool.not_true] at hcond
      exact ⟨hcond.1.1.1.1, by simpa [isSplit] using hcond.1.1.1.2⟩
    · cases h
  · cases h

/-- Walking the steps, each kept or split, keeps well-formed steps well formed and made before
the supply's mark. -/
theorem mapM_splits_wellFormed (sch : Scheduler) (ceiling : Nat) (keep : List Ident) :
    ∀ (l done : List Step) {yss : List (List Step)} {σ τ : IdSupply},
      (l.mapM fun step => match Scheduler.splits ceiling keep step with
        | some d => Scheduler.splitStep step
            (splitRuns step.runs (Nat.max (ceiling / d) 1) sch.config.splitStrategy)
        | none => pure [step]).run σ = .ok (yss, τ) →
      WellFormed (done ++ l) → Minted σ.next (done ++ l) →
      WellFormed (done ++ yss.flatten) ∧ Minted τ.next (done ++ yss.flatten) ∧ σ.next ≤ τ.next
  | [], done, yss, σ, τ, h, hw, hm => by
    cases h
    exact ⟨by simpa using hw, by simpa using hm, Nat.le_refl _⟩
  | st :: l, done, yss, σ, τ, h, hw, hm => by
    rw [List.mapM_cons] at h
    obtain ⟨ys, ρ, hys, h⟩ := Planning.run_bind_ok h
    obtain ⟨yss', ρ', hyss, h⟩ := Planning.run_bind_ok h
    cases h
    have hone : WellFormed (done ++ ys ++ l) ∧ Minted ρ.next (done ++ ys ++ l) ∧
        σ.next ≤ ρ.next := by
      split at hys
      · rename_i d hsplits
        obtain ⟨hcopy, hsplit⟩ := splits_eq_some hsplits
        have hperm : (done ++ st :: l).Perm (st :: (done ++ l)) := List.perm_middle
        have hw' := hw.perm hperm
        have hm' := hm.perm hperm
        obtain ⟨hout, hruns⟩ := hw'.runs st List.mem_cons_self hcopy
        have hparts := splitRuns_ne_nil st.runs (Nat.max (ceiling / d) 1) sch.config.splitStrategy
        have hsum := sum_splitRuns st.runs (Nat.max (ceiling / d) 1) sch.config.splitStrategy
        obtain ⟨hinto, hnext⟩ := splitStep_spec hparts hsum hout hruns hys
        obtain ⟨hw'', hm''⟩ := hw'.splitInto hm' hcopy hsplit hparts hsum hinto
        have hback : (ys ++ (done ++ l)).Perm (done ++ ys ++ l) := by
          rw [← List.append_assoc]
          exact List.perm_append_comm.append_right l
        exact ⟨hw''.perm hback, hnext ▸ hm''.perm hback, by omega⟩
      · cases hys
        exact ⟨by simpa using hw, by simpa using hm, Nat.le_refl _⟩
    obtain ⟨hw₁, hm₁, hle₁⟩ := hone
    obtain ⟨hw₂, hm₂, hle₂⟩ := mapM_splits_wellFormed sch ceiling keep l (done ++ ys) hyss hw₁ hm₁
    refine ⟨?_, ?_, Nat.le_trans hle₁ hle₂⟩
    · simpa [List.flatten_cons, List.append_assoc] using hw₂
    · simpa [List.flatten_cons, List.append_assoc] using hm₂

/-- Splitting the long steps of well-formed steps made before the supply's mark gives
well-formed steps, made before the supply's new mark. -/
theorem splitExcept_wellFormed {sch : Scheduler} {steps steps' : List Step} {keep : List Ident}
    {σ τ : IdSupply} (hw : WellFormed steps) (hm : Minted σ.next steps)
    (h : (sch.splitExcept steps keep).run σ = .ok (steps', τ)) :
    WellFormed steps' ∧ Minted τ.next steps' ∧ σ.next ≤ τ.next := by
  unfold Scheduler.splitExcept at h
  split at h
  · cases h
    exact ⟨hw, hm, Nat.le_refl _⟩
  · rename_i ceiling _
    rw [StateT.run_map] at h
    obtain ⟨⟨yss, τ'⟩, hm', he⟩ := ok_of_map h
    cases he
    simpa using mapM_splits_wellFormed sch ceiling keep steps [] hm' (by simpa using hw)
      (by simpa using hm)

/-- Every step after splitting shares what split groups share with a step it came from. -/
theorem splitExcept_groupView {sch : Scheduler} {steps steps' : List Step} {keep : List Ident}
    {σ τ : IdSupply} (hg : Grouped steps) (h : (sch.splitExcept steps keep).run σ = .ok (steps', τ)) :
    ∀ y ∈ steps', ∃ s ∈ steps, y.groupView = s.groupView := by
  unfold Scheduler.splitExcept at h
  split at h
  · cases h
    exact fun y hy => ⟨y, hy, rfl⟩
  · rename_i ceiling _
    rw [StateT.run_map] at h
    obtain ⟨⟨yss, τ'⟩, hm', he⟩ := ok_of_map h
    cases he
    have hrel := Planning.mapM_forall₂ (fun (st : Step) (ys : List Step) =>
        ∀ y ∈ ys, y.groupView = st.groupView) hm' fun st ys _ _ hst hys => by
      split at hys
      · rename_i d hsplits
        obtain ⟨hout, hruns⟩ := hg.runs st hst (splits_eq_some hsplits).1
        obtain ⟨hinto, -⟩ := splitStep_spec (splitRuns_ne_nil _ _ _) (sum_splitRuns _ _ _) hout
          hruns hys
        intro y hy
        obtain ⟨x, -, hx, -⟩ := exists_of_forall₂_right hinto hy
        exact hx.groupView
      · cases hys
        intro y hy
        rw [List.mem_singleton.1 hy]
    intro y hy
    obtain ⟨ys, hys, hy⟩ := List.mem_flatten.1 hy
    obtain ⟨st, hst, hview⟩ := exists_of_forall₂_right hrel hys
    exact ⟨st, hst, hview y hy⟩

end Replace

end Step

end Fabrication
