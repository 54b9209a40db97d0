import Fabrication.Proofs.Table
import Fabrication.Step.Recalculate
import Mathlib.Data.List.Perm.Basic
import Mathlib.Data.List.Nodup

/-!
# The logical steps of a plan

Recalculation works on logical steps: a step that is not a copy, or a whole split group. Placing
the steps one by one (`placeStep`) puts the position of every step that is not a copy into
exactly one logical step, so the members of all logical steps are those positions, each once
(`nodup_flatMap_members`, `mem_members`), and logical steps at different places share no member
(`disjoint_members`).

Logical steps are recalculated in the order `Logical.before`: by depth, then recipe id, then
activity of their first members. Of two logical steps, the one that comes strictly before the
other in that order (`Logical.Precedes`) is recalculated first (`lt_of_precedes`). A material
is owned by the first logical step making it; when logical steps make different products, each
owns its own (`ownerOf_of_nodup`).
-/

namespace Fabrication

namespace Logical

variable (steps : List Step)

/-- Logical step `a` comes strictly before `b` in depth, then recipe id, then activity of their
first members. -/
def Precedes (a b : Logical) : Prop :=
  a.depth < b.depth ∨ a.depth = b.depth ∧ ((a.head steps).recipe < (b.head steps).recipe ∨
    (a.head steps).recipe = (b.head steps).recipe ∧
      (a.head steps).activity.rank < (b.head steps).activity.rank)

instance (a b : Logical) : Decidable (a.Precedes steps b) := inferInstanceAs (Decidable (_ ∨ _))

theorem before_total (a b : Logical) : before steps a b = true ∨ before steps b a = true := by
  simp only [before, Bool.or_eq_true, Bool.and_eq_true, decide_eq_true_eq, beq_iff_eq]
  omega

theorem before_trans (a b c : Logical) (hab : before steps a b = true)
    (hbc : before steps b c = true) : before steps a c = true := by
  simp only [before, Bool.or_eq_true, Bool.and_eq_true, decide_eq_true_eq, beq_iff_eq] at *
  omega

theorem precedes_irrefl (a : Logical) : ¬a.Precedes steps a := by
  simp only [Precedes]
  omega

/-- Coming strictly before is the strict part of `before`. -/
theorem before_eq_false_of_precedes {a b : Logical} (h : a.Precedes steps b) :
    before steps b a = false := by
  simp only [Precedes] at h
  simp only [before, Bool.or_eq_false_iff, Bool.and_eq_false_iff, decide_eq_false_iff_not,
    beq_eq_false_iff_ne]
  omega

end Logical

namespace Step

/-- What grouping keeps along the way: every logical step has a member, and every group's slot
names one of them. -/
private def Placed (acc : List Logical × List (Ident × Nat)) : Prop :=
  (∀ l ∈ acc.1, l.members ≠ []) ∧ ∀ g ∈ acc.2, g.2 < acc.1.length

/-- Adding a position to the members of one logical step adds it to the positions of all. -/
private theorem flatMap_modify_perm {ls : List Logical} {slot i : Nat} {f : Logical → Logical}
    (hf : ∀ l, (f l).members = l.members ++ [i]) (h : slot < ls.length) :
    ((ls.modify slot f).flatMap (·.members)).Perm (ls.flatMap (·.members) ++ [i]) := by
  have hls : ls = ls.take slot ++ ls[slot] :: ls.drop (slot + 1) := by
    rw [← List.drop_eq_getElem_cons h, List.take_append_drop]
  rw [List.modify_eq_take_cons_drop h]
  conv_rhs => rw [hls]
  simp only [List.flatMap_append, List.flatMap_cons, hf, List.append_assoc]
  exact ((List.perm_append_singleton i _).symm.append_left _).append_left _

/-- Placing a step keeps `Placed` and adds its position to the members of one logical step. -/
private theorem placeStep_places (acc : List Logical × List (Ident × Nat)) (x : Step × Nat)
    (h : Placed acc) :
    Placed (placeStep acc x) ∧
      ((placeStep acc x).1.flatMap (·.members)).Perm (acc.1.flatMap (·.members) ++ [x.2]) := by
  obtain ⟨logical, groups⟩ := acc
  obtain ⟨s, i⟩ := x
  obtain ⟨hne, hslots⟩ := h
  dsimp only at hne hslots ⊢
  have hnew : ∀ groups' : List (Ident × Nat), (∀ g ∈ groups', g.2 < logical.length + 1) →
      Placed (logical ++ [(⟨[i], s.depth⟩ : Logical)], groups') ∧
        ((logical ++ [(⟨[i], s.depth⟩ : Logical)]).flatMap (·.members)).Perm
          (logical.flatMap (·.members) ++ [i]) := by
    intro groups' hgroups
    refine ⟨⟨fun l hl => ?_, by simpa using hgroups⟩, by simp⟩
    rcases List.mem_append.1 hl with hl | hl
    · exact hne l hl
    · simp at hl
      simp [hl]
  unfold placeStep
  dsimp only
  split
  · split
    · rename_i g g' slot hfind
      have hslot : slot < logical.length := hslots _ (List.mem_of_find?_eq_some hfind)
      refine ⟨⟨fun l hl => ?_, by simpa using hslots⟩, flatMap_modify_perm (fun l => rfl) hslot⟩
      rw [List.modify_eq_take_cons_drop hslot] at hl
      simp only [List.mem_append, List.mem_cons] at hl
      rcases hl with hl | rfl | hl
      · exact hne l (List.mem_of_mem_take hl)
      · simp
      · exact hne l (List.mem_of_mem_drop hl)
    · refine hnew _ fun g hg => ?_
      rcases List.mem_append.1 hg with hg | hg
      · have := hslots g hg
        omega
      · simp at hg
        simp [hg]
  · exact hnew groups fun g hg => by have := hslots g hg; omega

/-- Placing steps one by one keeps `Placed` and adds their positions to the members. -/
private theorem foldl_placeStep (xs : List (Step × Nat)) (acc : List Logical × List (Ident × Nat))
    (h : Placed acc) :
    Placed (xs.foldl placeStep acc) ∧
      ((xs.foldl placeStep acc).1.flatMap (·.members)).Perm
        (acc.1.flatMap (·.members) ++ xs.map (·.2)) := by
  induction xs generalizing acc with
  | nil => simp [h]
  | cons x xs ih =>
    obtain ⟨hplaced, hperm⟩ := placeStep_places acc x h
    obtain ⟨hfin, hrest⟩ := ih _ hplaced
    refine ⟨hfin, hrest.trans ?_⟩
    simpa using hperm.append_right (xs.map (·.2))

/-- Every logical step has a member, and the members of all logical steps are the positions of
the steps that are not copies, each once. -/
private theorem logicalSteps_places (steps : List Step) :
    (∀ l ∈ logicalSteps steps, l.members ≠ []) ∧
      ((logicalSteps steps).flatMap (·.members)).Perm
        ((steps.zipIdx.filter (!·.1.isCopy)).map (·.2)) := by
  have hgroup := foldl_placeStep (steps.zipIdx.filter (!·.1.isCopy)) ([], []) ⟨by simp, by simp⟩
  unfold logicalSteps
  dsimp only
  refine ⟨fun l hl => ?_, ?_⟩
  · obtain ⟨l₀, hl₀, rfl⟩ := List.mem_map.1 ((mem_sortBy _).1 hl)
    exact fun hnil => hgroup.1.1 l₀ hl₀ (List.eq_nil_of_subset_nil fun x hx =>
      hnil ▸ (mem_sortBy _).2 hx)
  · refine ((sortBy_perm _ _).flatMap_right _).trans ?_
    rw [List.flatMap_map]
    refine (List.Perm.flatMap_left _ fun l _ => sortBy_perm _ l.members).trans ?_
    exact hgroup.2.trans (by simp)

variable {steps : List Step}

theorem members_ne_nil {l : Logical} (hl : l ∈ logicalSteps steps) : l.members ≠ [] :=
  (logicalSteps_places steps).1 l hl

/-- The member positions of all logical steps, each once. -/
theorem nodup_flatMap_members (steps : List Step) :
    ((logicalSteps steps).flatMap (·.members)).Nodup := by
  refine (logicalSteps_places steps).2.nodup_iff.2 ?_
  have hrange : (steps.zipIdx.map (·.2)).Nodup := by simp [List.nodup_range']
  exact hrange.sublist ((List.filter_sublist).map _)

/-- The position of a step that is not a copy is a member of a logical step. -/
theorem exists_mem_members {p : Nat} (hp : p < steps.length) (hcopy : (stepAt steps p).isCopy = false) :
    ∃ l ∈ logicalSteps steps, p ∈ l.members := by
  have hpos : p ∈ (steps.zipIdx.filter (!·.1.isCopy)).map (·.2) := by
    refine List.mem_map.2 ⟨(steps[p], p), List.mem_filter.2 ⟨?_, ?_⟩, rfl⟩
    · exact List.mem_zipIdx_iff_getElem?.2 (by simp [hp])
    · simpa [stepAt, hp] using hcopy
  exact List.mem_flatMap.1 ((logicalSteps_places steps).2.symm.subset hpos)

/-- A member of a logical step is the position of a step, and not of a copy. -/
theorem mem_members {l : Logical} (hl : l ∈ logicalSteps steps) {m : Nat} (hm : m ∈ l.members) :
    m < steps.length ∧ (stepAt steps m).isCopy = false := by
  have hpos := (logicalSteps_places steps).2.subset (List.mem_flatMap.2 ⟨l, hl, hm⟩)
  obtain ⟨⟨s, i⟩, hx, rfl⟩ := List.mem_map.1 hpos
  obtain ⟨hmem, hcopy⟩ := List.mem_filter.1 hx
  obtain ⟨hi, hs⟩ := List.mem_zipIdx' hmem
  refine ⟨hi, ?_⟩
  simpa [stepAt, hi, ← hs] using hcopy

/-- Logical steps at different places in recalculation order have no member in common. -/
theorem disjoint_members {i j : Nat} (hi : i < (logicalSteps steps).length)
    (hj : j < (logicalSteps steps).length) (hij : i ≠ j) {m : Nat}
    (hmi : m ∈ (logicalSteps steps)[i].members) : m ∉ (logicalSteps steps)[j].members := by
  have hdisj := (List.nodup_flatMap.1 (nodup_flatMap_members steps)).2
  rw [List.pairwise_iff_getElem] at hdisj
  rcases Nat.lt_or_gt_of_ne hij with hlt | hlt
  · exact List.disjoint_left.1 (hdisj i j hi hj hlt) hmi
  · exact List.disjoint_right.1 (hdisj j i hj hi hlt) hmi

/-- A logical step lists each of its members once. -/
theorem members_nodup {l : Logical} (hl : l ∈ logicalSteps steps) : l.members.Nodup :=
  (List.nodup_flatMap.1 (nodup_flatMap_members steps)).1 l hl

/-- Logical steps at different places are different. -/
theorem logicalSteps_nodup (steps : List Step) : (logicalSteps steps).Nodup := by
  refine List.pairwise_iff_getElem.2 fun i j hi hj hij heq => ?_
  obtain ⟨m, hm⟩ := List.exists_mem_of_ne_nil _ (members_ne_nil (List.getElem_mem hi))
  exact disjoint_members hi hj (Nat.ne_of_lt hij) hm (heq ▸ hm)

/-- The logical steps come in the order of `Logical.before`. -/
theorem logicalSteps_pairwise (steps : List Step) :
    (logicalSteps steps).Pairwise fun a b => Logical.before steps a b = true := by
  unfold logicalSteps
  exact sortBy_pairwise (Logical.before_total steps) (Logical.before_trans steps) _

/-- Of two logical steps, the one that comes strictly before the other in depth, recipe and
activity is recalculated first. -/
theorem lt_of_precedes {i j : Nat} (hi : i < (logicalSteps steps).length)
    (hj : j < (logicalSteps steps).length)
    (h : (logicalSteps steps)[j].Precedes steps (logicalSteps steps)[i]) : j < i := by
  have hne : i ≠ j := by
    rintro rfl
    exact Logical.precedes_irrefl steps _ h
  refine (Nat.lt_or_gt_of_ne hne).resolve_left fun hlt => ?_
  have hbefore := List.pairwise_iff_getElem.1 (logicalSteps_pairwise steps) i j hi hj hlt
  rw [Logical.before_eq_false_of_precedes steps h] at hbefore
  cases hbefore

section Owner

variable {logical : List Logical} {m j : Nat}

/-- The owner of a material is the place of a logical step making it. -/
theorem ownerOf_eq_some (h : ownerOf steps logical m = some j) :
    ∃ hj : j < logical.length, (logical[j].head steps).product = m := by
  obtain ⟨⟨l, j'⟩, hfind, rfl⟩ := Option.map_eq_some_iff.1 h
  have hsat := List.find?_some hfind
  obtain ⟨hj, hl⟩ := List.mem_zipIdx' (List.mem_of_find?_eq_some hfind)
  exact ⟨hj, by simpa [← hl] using hsat⟩

/-- When logical steps make different products, each owns its product. -/
theorem ownerOf_of_nodup (hprod : (logical.map fun l => (l.head steps).product).Nodup)
    (hj : j < logical.length) : ownerOf steps logical (logical[j].head steps).product = some j := by
  unfold ownerOf
  have hfind : logical.zipIdx.find? (fun x => (x.1.head steps).product == (logical[j].head steps).product) =
      some (logical[j], j) := by
    refine List.find?_eq_some_iff_getElem.2 ⟨by simp, j, by simpa using hj, by simp, fun i hi => ?_⟩
    have hne : (logical[i].head steps).product ≠ (logical[j].head steps).product := by
      intro heq
      have hi' : i < (logical.map fun l => (l.head steps).product).length := by simp; omega
      have hj' : j < (logical.map fun l => (l.head steps).product).length := by simpa using hj
      have hij : (logical.map fun l => (l.head steps).product)[i] =
          (logical.map fun l => (l.head steps).product)[j] := by simpa using heq
      have := hprod.getElem_inj_iff.1 hij
      omega
    simpa [List.getElem_zipIdx] using hne
  rw [hfind]
  rfl

end Owner

section Gather

/-- What placing the steps at the positions `done` keeps, for positions whose steps have the
split groups `grp`: every logical step has members, which are one position or share a split
group; every entry of the table of groups names a logical step whose members all belong to
that group; and a placed position of a group lies in the logical step of the group's first
entry. -/
private def Gathers (grp : Nat → Option Ident) (done : List Nat) (logical : List Logical)
    (groups : List (Ident × Nat)) : Prop :=
  (∀ l ∈ logical, l.members ≠ [] ∧
    ∀ x ∈ l.members, ∀ y ∈ l.members, x = y ∨ grp x = grp y ∧ (grp x).isSome) ∧
  (∀ e ∈ groups, e.2 < logical.length ∧
    ∀ x ∈ (logical.getD e.2 default).members, grp x = some e.1) ∧
  ∀ x ∈ done, ∀ g, grp x = some g →
    ∃ e, groups.find? (·.1 == g) = some e ∧ x ∈ (logical.getD e.2 default).members

private theorem exists_getD_of_mem {ls : List Logical} {l : Logical} (hl : l ∈ ls) :
    ∃ k < ls.length, ls.getD k default = l := by
  obtain ⟨k, hk, rfl⟩ := List.getElem_of_mem hl
  exact ⟨k, hk, by simp [List.getD_eq_getElem?_getD, hk]⟩

private theorem getD_mem {ls : List Logical} {k : Nat} (hk : k < ls.length) :
    ls.getD k default ∈ ls := by
  simp [List.getD_eq_getElem?_getD, hk]

private theorem getD_append_of_lt {ls ls' : List Logical} {k : Nat} (hk : k < ls.length) :
    (ls ++ ls').getD k default = ls.getD k default := by
  simp [List.getD_eq_getElem?_getD, List.getElem?_append_left hk]

/-- Adding a position to the logical step at `slot` adds it to that step's members only. -/
private theorem members_getD_modify {ls : List Logical} {slot : Nat} (hslot : slot < ls.length)
    (i d : Nat) (k : Nat) :
    ((ls.modify slot fun l => ⟨l.members ++ [i], Nat.max l.depth d⟩).getD k default).members =
      if k = slot then (ls.getD k default).members ++ [i] else (ls.getD k default).members := by
  by_cases hk : k = slot
  · subst hk
    simp [List.getD_eq_getElem?_getD, hslot]
  · rw [if_neg hk, List.getD_eq_getElem?_getD, List.getElem?_modify]
    simp [Ne.symm hk, List.getD_eq_getElem?_getD]

/-- A position of no group starts a logical step of its own. -/
private theorem gathers_alone {grp : Nat → Option Ident} {done : List Nat}
    {logical : List Logical} {groups : List (Ident × Nat)} (h : Gathers grp done logical groups)
    {i : Nat} (d : Nat) (hi : grp i = none) :
    Gathers grp (done ++ [i]) (logical ++ [⟨[i], d⟩]) groups := by
  obtain ⟨hshare, hslots, hfound⟩ := h
  refine ⟨fun l hl => ?_, fun e he => ?_, fun x hx g hg => ?_⟩
  · rcases List.mem_append.1 hl with hl | hl
    · exact hshare l hl
    · obtain rfl := List.mem_singleton.1 hl
      exact ⟨by simp, fun x hx y hy =>
        .inl ((List.mem_singleton.1 hx).trans (List.mem_singleton.1 hy).symm)⟩
  · obtain ⟨hlt, hmem⟩ := hslots e he
    refine ⟨by rw [List.length_append]; omega, fun x hx => hmem x ?_⟩
    rwa [getD_append_of_lt hlt] at hx
  · rcases List.mem_append.1 hx with hx | hx
    · obtain ⟨e, hfind, hxe⟩ := hfound x hx g hg
      refine ⟨e, hfind, ?_⟩
      rwa [getD_append_of_lt (hslots e (List.mem_of_find?_eq_some hfind)).1]
    · rw [List.mem_singleton.1 hx, hi] at hg
      cases hg

/-- A position of a group not met before starts a logical step, and the group's entry. -/
private theorem gathers_first {grp : Nat → Option Ident} {done : List Nat}
    {logical : List Logical} {groups : List (Ident × Nat)} (h : Gathers grp done logical groups)
    {i : Nat} (d : Nat) {g : Ident} (hi : grp i = some g)
    (hnone : groups.find? (·.1 == g) = none) :
    Gathers grp (done ++ [i]) (logical ++ [⟨[i], d⟩]) (groups ++ [(g, logical.length)]) := by
  obtain ⟨hshare, hslots, hfound⟩ := h
  have hlast : (logical ++ [(⟨[i], d⟩ : Logical)]).getD logical.length default = ⟨[i], d⟩ := by
    simp [List.getD_eq_getElem?_getD]
  refine ⟨fun l hl => ?_, fun e he => ?_, fun x hx h hh => ?_⟩
  · rcases List.mem_append.1 hl with hl | hl
    · exact hshare l hl
    · obtain rfl := List.mem_singleton.1 hl
      exact ⟨by simp, fun x hx y hy =>
        .inl ((List.mem_singleton.1 hx).trans (List.mem_singleton.1 hy).symm)⟩
  · rcases List.mem_append.1 he with he | he
    · obtain ⟨hlt, hmem⟩ := hslots e he
      refine ⟨by rw [List.length_append]; omega, fun x hx => hmem x ?_⟩
      rwa [getD_append_of_lt hlt] at hx
    · obtain rfl := List.mem_singleton.1 he
      refine ⟨by simp, fun x hx => ?_⟩
      dsimp only at hx ⊢
      rw [hlast] at hx
      rw [List.mem_singleton.1 hx]
      exact hi
  · rcases List.mem_append.1 hx with hx | hx
    · obtain ⟨e, hfind, hxe⟩ := hfound x hx h hh
      refine ⟨e, by rw [List.find?_append, hfind]; rfl, ?_⟩
      rwa [getD_append_of_lt (hslots e (List.mem_of_find?_eq_some hfind)).1]
    · obtain rfl := List.mem_singleton.1 hx
      obtain rfl : h = g := Option.some.inj (hh.symm.trans hi)
      refine ⟨(h, logical.length), by simp [List.find?_append, hnone], ?_⟩
      rw [hlast]
      exact List.mem_singleton_self _

/-- A position of a group met before joins the logical step of the group's first entry. -/
private theorem gathers_join {grp : Nat → Option Ident} {done : List Nat}
    {logical : List Logical} {groups : List (Ident × Nat)} (h : Gathers grp done logical groups)
    {i : Nat} (d : Nat) {g : Ident} (hi : grp i = some g) {slot : Nat}
    (hfind : groups.find? (·.1 == g) = some (g, slot)) :
    Gathers grp (done ++ [i])
      (logical.modify slot fun l => ⟨l.members ++ [i], Nat.max l.depth d⟩) groups := by
  obtain ⟨hshare, hslots, hfound⟩ := h
  obtain ⟨hslot, hgroup⟩ := hslots _ (List.mem_of_find?_eq_some hfind)
  have hat := members_getD_modify hslot i d
  have hjoined : ∀ x ∈ (logical.getD slot default).members ++ [i], grp x = some g := by
    intro x hx
    rcases List.mem_append.1 hx with hx | hx
    · exact hgroup x hx
    · rw [List.mem_singleton.1 hx, hi]
  refine ⟨fun l hl => ?_, fun e he => ?_, fun x hx h hh => ?_⟩
  · obtain ⟨k, hk, rfl⟩ := exists_getD_of_mem hl
    rw [List.length_modify] at hk
    rw [hat k]
    split
    · rename_i hks
      subst hks
      refine ⟨by simp, fun x hx y hy => .inr ⟨(hjoined x hx).trans (hjoined y hy).symm, ?_⟩⟩
      rw [hjoined x hx]
      rfl
    · exact hshare _ (getD_mem hk)
  · obtain ⟨hlt, hmem⟩ := hslots e he
    refine ⟨by rw [List.length_modify]; exact hlt, fun x hx => ?_⟩
    rw [hat] at hx
    split at hx
    · rename_i hes
      dsimp only at hes
      obtain ⟨z, hz⟩ := List.exists_mem_of_ne_nil _ (hshare _ (getD_mem hslot)).1
      have he₁ : e.1 = g := by
        have h₁ := hmem z (hes ▸ hz)
        rw [hgroup z hz] at h₁
        exact (Option.some.inj h₁).symm
      rw [he₁]
      exact hjoined x (hes ▸ hx)
    · exact hmem x hx
  · rcases List.mem_append.1 hx with hx | hx
    · obtain ⟨e, hfind', hxe⟩ := hfound x hx h hh
      refine ⟨e, hfind', ?_⟩
      rw [hat]
      split
      · exact List.mem_append_left _ hxe
      · exact hxe
    · obtain rfl := List.mem_singleton.1 hx
      obtain rfl : h = g := Option.some.inj (hh.symm.trans hi)
      refine ⟨(h, slot), hfind, ?_⟩
      rw [hat, if_pos rfl]
      exact List.mem_append_right _ (List.mem_singleton_self x)

/-- Placing steps one by one keeps `Gathers`. -/
private theorem foldl_placeStep_gathers (grp : Nat → Option Ident) (xs : List (Step × Nat))
    (hxs : ∀ x ∈ xs, x.1.group = grp x.2) {done : List Nat} {logical : List Logical}
    {groups : List (Ident × Nat)} (h : Gathers grp done logical groups) :
    Gathers grp (done ++ xs.map (·.2)) (xs.foldl placeStep (logical, groups)).1
      (xs.foldl placeStep (logical, groups)).2 := by
  induction xs generalizing done logical groups with
  | nil => simpa using h
  | cons x xs ih =>
    obtain ⟨s, i⟩ := x
    have hs : s.group = grp i := hxs (s, i) List.mem_cons_self
    have hplaced : Gathers grp (done ++ [i]) (placeStep (logical, groups) (s, i)).1
        (placeStep (logical, groups) (s, i)).2 := by
      unfold placeStep
      dsimp only
      split
      · rename_i g hg
        rw [hg] at hs
        split
        · rename_i g' slot hfind
          obtain rfl : g' = g := by simpa using List.find?_some hfind
          exact gathers_join h s.depth hs.symm hfind
        · rename_i hnone
          exact gathers_first h s.depth hs.symm hnone
      · rename_i hg
        rw [hg] at hs
        exact gathers_alone h s.depth hs.symm
    rw [List.foldl_cons, List.map_cons, ← List.singleton_append, ← List.append_assoc]
    exact ih (fun x hx => hxs x (List.mem_cons_of_mem _ hx)) hplaced

/-- Two logical steps with a member in common are one. -/
theorem eq_of_mem_members {l l' : Logical} (hl : l ∈ logicalSteps steps)
    (hl' : l' ∈ logicalSteps steps) {p : Nat} (hp : p ∈ l.members) (hp' : p ∈ l'.members) :
    l = l' := by
  obtain ⟨i, hi, rfl⟩ := List.getElem_of_mem hl
  obtain ⟨j, hj, rfl⟩ := List.getElem_of_mem hl'
  by_cases hij : i = j
  · subst hij
    rfl
  · exact absurd hp' (disjoint_members hi hj hij hp)

/-- Two positions share a logical step exactly when they are one, or belong to one split group:
a logical step is a step that is not a copy, or a whole split group. -/
theorem mem_members_iff {l : Logical} (hl : l ∈ logicalSteps steps) {p : Nat}
    (hp : p ∈ l.members) (q : Nat) :
    q ∈ l.members ↔ q < steps.length ∧ (stepAt steps q).isCopy = false ∧
      (q = p ∨ (stepAt steps q).group = (stepAt steps p).group ∧ (stepAt steps p).group.isSome) := by
  set grp : Nat → Option Ident := fun k => (stepAt steps k).group with hgrp
  set xs := steps.zipIdx.filter (!·.1.isCopy) with hxs
  have hxs_at : ∀ x ∈ xs, x.1.group = grp x.2 := by
    intro x hx
    obtain ⟨hi, hs⟩ := List.mem_zipIdx' (List.mem_filter.1 hx).1
    simp [hgrp, stepAt, hi, ← hs]
  have hdone : ∀ k, k ∈ xs.map (·.2) ↔ k < steps.length ∧ (stepAt steps k).isCopy = false := by
    intro k
    constructor
    · rintro hk
      obtain ⟨⟨s, i⟩, hx, rfl⟩ := List.mem_map.1 hk
      obtain ⟨hmem, hcopy⟩ := List.mem_filter.1 hx
      obtain ⟨hi, hs⟩ := List.mem_zipIdx' hmem
      exact ⟨hi, by simpa [stepAt, hi, ← hs] using hcopy⟩
    · rintro ⟨hk, hcopy⟩
      refine List.mem_map.2 ⟨(steps[k], k), List.mem_filter.2 ⟨?_, ?_⟩, rfl⟩
      · exact List.mem_zipIdx_iff_getElem?.2 (by simp [hk])
      · simpa [stepAt, hk] using hcopy
  obtain ⟨hshare, hslots, hfound⟩ :=
    @foldl_placeStep_gathers grp xs hxs_at [] [] [] ⟨by simp, by simp, by simp⟩
  set raw := (xs.foldl placeStep ([], [])).1
  have hsorted : ∀ l₀ ∈ raw, ∃ l' ∈ logicalSteps steps, ∀ x, x ∈ l'.members ↔ x ∈ l₀.members := by
    intro l₀ hl₀
    refine ⟨_, (mem_sortBy _).2 (List.mem_map_of_mem hl₀), fun x => mem_sortBy _⟩
  obtain ⟨l₀, hl₀, hl₀l⟩ := List.mem_map.1 ((mem_sortBy _).1 hl)
  have hmem : ∀ x, x ∈ l.members ↔ x ∈ l₀.members := by
    intro x
    rw [← hl₀l]
    exact mem_sortBy _
  rw [hmem] at hp ⊢
  obtain ⟨hplen, hpcopy⟩ := mem_members hl ((hmem p).2 hp)
  constructor
  · intro hq
    obtain ⟨hqlen, hqcopy⟩ := mem_members hl ((hmem q).2 hq)
    refine ⟨hqlen, hqcopy, ?_⟩
    rcases (hshare l₀ hl₀).2 q hq p hp with rfl | ⟨heq, hsome⟩
    · exact .inl rfl
    · have hsome' : (grp p).isSome = true := heq ▸ hsome
      exact .inr ⟨heq, hsome'⟩
  · rintro ⟨hqlen, hqcopy, rfl | ⟨heq, hsome⟩⟩
    · exact hp
    obtain ⟨g, hg⟩ := Option.isSome_iff_exists.1 hsome
    obtain ⟨e, hfind, hqe⟩ := hfound q ((hdone q).2 ⟨hqlen, hqcopy⟩) g (heq.trans hg)
    obtain ⟨e', hfind', hpe⟩ := hfound p ((hdone p).2 ⟨hplen, hpcopy⟩) g hg
    rw [hfind] at hfind'
    cases hfind'
    have hlt := (hslots e (List.mem_of_find?_eq_some hfind)).1
    obtain ⟨l₁, hl₁, hmem₁⟩ := hsorted _ (getD_mem hlt)
    have := eq_of_mem_members hl hl₁ ((hmem p).2 hp) ((hmem₁ p).2 hpe)
    rw [← hmem, this, hmem₁]
    exact hqe

end Gather

end Step

end Fabrication
