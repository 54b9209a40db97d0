import Mathlib
import Fabrication.Proofs.Outcome
import Fabrication.Proofs.Table
import Fabrication.Step.Recalculate

/-!
# Reassigning runs and quantities

A recalculation writes new runs and quantities into some steps and marks the steps whose
counts changed. `Reassigned before after ps dirty marked` says that of the positions `ps`:
every other part of every step is kept (`sansCounts`), the steps outside `ps` keep their
counts, and the marks added to `dirty` are the identifiers of the steps of `ps` whose counts
changed. Reassignments of disjoint positions compose (`Reassigned.trans`).

`assign` shares runs and a quantity out among the members of a logical step, in proportion to
their previous runs, the last member taking what is left. It reassigns exactly its members,
whose runs then add up to the runs and whose quantities add up to the quantity
(`assign_spec`).
-/

namespace Fabrication

theorem Ident.mem_insertSorted {x y : Ident} {ys : List Ident} :
    y ∈ Ident.insertSorted x ys ↔ y = x ∨ y ∈ ys := by
  induction ys with
  | nil => simp [Ident.insertSorted]
  | cons z zs ih =>
    unfold Ident.insertSorted
    split_ifs with hxz hlt
    · subst hxz
      simp
    · simp
    · simp only [List.mem_cons, ih]
      tauto

/-- Inserting the identifiers of some steps one by one adds exactly those identifiers. -/
theorem Ident.mem_foldl_insertSorted {x : Ident} (xs : List Step) (ids : List Ident) :
    x ∈ xs.foldl (fun ids s => Ident.insertSorted s.id ids) ids ↔ x ∈ ids ∨ ∃ s ∈ xs, s.id = x := by
  induction xs generalizing ids with
  | nil => simp
  | cons y xs ih =>
    rw [List.foldl_cons, ih, Ident.mem_insertSorted]
    constructor
    · rintro ((rfl | hx) | ⟨s, hs, rfl⟩)
      · exact .inr ⟨y, by simp, rfl⟩
      · exact .inl hx
      · exact .inr ⟨s, by simp [hs], rfl⟩
    · rintro (hx | ⟨s, hs, rfl⟩)
      · exact .inl (.inr hx)
      · rcases List.mem_cons.1 hs with rfl | hs
        · exact .inl (.inl rfl)
        · exact .inr ⟨s, hs, rfl⟩

@[simp] theorem DirtySet.mem_mark {d : DirtySet} {x y : Ident} :
    y ∈ (d.mark x).ids ↔ y = x ∨ y ∈ d.ids :=
  Ident.mem_insertSorted

theorem Count.eq_of_sum?_ok {xs : List Nat} {n : Nat} (h : Count.sum? xs = .ok n) :
    n = xs.sum := by
  rw [Count.eq_of_check_ok h]
  rfl

namespace Step

/-- A step without its runs, its quantity and its group's total: what recalculation keeps. -/
def sansCounts (s : Step) : Step :=
  { s with runs := 0, quantity := 0, split := s.split.map fun i => { i with total := 0 } }

/-- The step at a position changed its runs or its quantity. -/
def Changed (before after : List Step) (p : Nat) : Prop :=
  (stepAt after p).runs ≠ (stepAt before p).runs ∨
    (stepAt after p).quantity ≠ (stepAt before p).quantity

instance (before after : List Step) (p : Nat) : Decidable (Changed before after p) :=
  inferInstanceAs (Decidable (_ ∨ _))

section Positions

variable {st : List Step} {m p : Nat}

theorem stepAt_set_self (h : m < st.length) (s : Step) : stepAt (st.set m s) m = s := by
  simp [stepAt, h]

theorem stepAt_set_of_ne (h : p ≠ m) (s : Step) : stepAt (st.set m s) p = stepAt st p := by
  simp [stepAt, Ne.symm h]

/-- Setting a step to itself leaves the steps as they are. -/
theorem set_stepAt_self (hm : m < st.length) : st.set m (stepAt st m) = st := by
  have hat : stepAt st m = st[m] := by simp [stepAt, hm]
  rw [hat, List.set_getElem_self]

theorem map_sansCounts_set {s : Step} (h : sansCounts s = sansCounts (stepAt st m)) :
    (st.set m s).map sansCounts = st.map sansCounts := by
  rw [List.map_set]
  by_cases hm : m < st.length
  · have hat : stepAt st m = st[m] := by simp [stepAt, hm]
    rw [h, hat]
    apply List.ext_getElem (by simp)
    intro j _ _
    by_cases hj : m = j
    · subst hj
      simp
    · simp [hj]
  · rw [List.set_eq_of_length_le (by simp; omega)]

/-- Steps that agree but for their counts agree so at every position. -/
theorem sansCounts_stepAt_of_map {st' : List Step} (h : st'.map sansCounts = st.map sansCounts)
    (p : Nat) : sansCounts (stepAt st' p) = sansCounts (stepAt st p) := by
  have hlen : st'.length = st.length := by simpa using congrArg List.length h
  by_cases hp : p < st.length
  · have hp' : p < st'.length := hlen ▸ hp
    have hat := congrArg (·[p]?) h
    simp only [List.getElem?_map, List.getElem?_eq_getElem hp, List.getElem?_eq_getElem hp',
      Option.map_some, Option.some.injEq] at hat
    simpa [stepAt, hp, hp'] using hat
  · have hp' : ¬p < st'.length := hlen ▸ hp
    simp [stepAt, List.getD_eq_getElem?_getD, hp, hp']

end Positions

/-- The sum of a count over the steps at some positions. -/
def sumAt (steps : List Step) (ps : List Nat) (f : Step → Nat) : Nat :=
  (ps.map fun p => f (stepAt steps p)).sum

section Sums

variable {st : List Step} {ps qs : List Nat} {f : Step → Nat}

@[simp] theorem sumAt_nil : sumAt st [] f = 0 := rfl

theorem sumAt_append : sumAt st (ps ++ qs) f = sumAt st ps f + sumAt st qs f := by
  simp [sumAt]

@[simp] theorem sumAt_singleton (p : Nat) : sumAt st [p] f = f (stepAt st p) := by
  simp [sumAt]

theorem sumAt_congr {st' : List Step} (h : ∀ p ∈ ps, f (stepAt st' p) = f (stepAt st p)) :
    sumAt st' ps f = sumAt st ps f := by
  unfold sumAt
  rw [List.map_congr_left h]

theorem sumAt_set_of_not_mem {m : Nat} {s : Step} (hm : m ∉ ps) :
    sumAt (st.set m s) ps f = sumAt st ps f :=
  sumAt_congr fun p hp => by rw [stepAt_set_of_ne (by rintro rfl; exact hm hp)]

end Sums

/-- `after` is `before` with new runs and quantities at the positions `ps` at most, and `marked`
adds to `dirty` the identifiers of the steps among them whose runs or quantity changed. -/
structure Reassigned (before after : List Step) (ps : List Nat) (dirty marked : DirtySet) :
    Prop where
  frame : after.map sansCounts = before.map sansCounts
  runs : ∀ p, p ∉ ps → (stepAt after p).runs = (stepAt before p).runs
  quantity : ∀ p, p ∉ ps → (stepAt after p).quantity = (stepAt before p).quantity
  marks : ∀ id, id ∈ marked.ids ↔
    id ∈ dirty.ids ∨ ∃ p ∈ ps, (stepAt before p).id = id ∧ Changed before after p

namespace Reassigned

variable {a b c : List Step} {ps qs : List Nat} {d₁ d₂ d₃ : DirtySet}

theorem length_eq (h : Reassigned a b ps d₁ d₂) : b.length = a.length := by
  simpa using congrArg List.length h.frame

theorem sansCounts_stepAt (h : Reassigned a b ps d₁ d₂) (p : Nat) :
    sansCounts (stepAt b p) = sansCounts (stepAt a p) :=
  sansCounts_stepAt_of_map h.frame p

theorem id_eq (h : Reassigned a b ps d₁ d₂) (p : Nat) : (stepAt b p).id = (stepAt a p).id :=
  congrArg (·.id) (h.sansCounts_stepAt p)

/-- Leaving the steps as they are reassigns any positions, and marks nothing. -/
theorem refl (a : List Step) (ps : List Nat) (d : DirtySet) : Reassigned a a ps d d where
  frame := rfl
  runs _ _ := rfl
  quantity _ _ := rfl
  marks id := by simp [Changed]

theorem changed_iff_of_not_mem (h : Reassigned a b ps d₁ d₂) {p : Nat} (hp : p ∉ ps) :
    Changed b c p ↔ Changed a c p := by
  unfold Changed
  rw [h.runs p hp, h.quantity p hp]

theorem changed_iff_of_not_mem' (h : Reassigned b c qs d₁ d₂) {p : Nat} (hp : p ∉ qs) :
    Changed a c p ↔ Changed a b p := by
  unfold Changed
  rw [h.runs p hp, h.quantity p hp]

/-- Reassigning two disjoint sets of positions one after the other. -/
theorem trans (h₁ : Reassigned a b ps d₁ d₂) (h₂ : Reassigned b c qs d₂ d₃)
    (hdis : ∀ p ∈ qs, p ∉ ps) : Reassigned a c (ps ++ qs) d₁ d₃ where
  frame := h₂.frame.trans h₁.frame
  runs p hp := by
    simp only [List.mem_append, not_or] at hp
    rw [h₂.runs p hp.2, h₁.runs p hp.1]
  quantity p hp := by
    simp only [List.mem_append, not_or] at hp
    rw [h₂.quantity p hp.2, h₁.quantity p hp.1]
  marks id := by
    rw [h₂.marks, h₁.marks]
    constructor
    · rintro ((hd | ⟨p, hp, hid, hch⟩) | ⟨p, hp, hid, hch⟩)
      · exact .inl hd
      · have hq : p ∉ qs := fun hq => hdis p hq hp
        exact .inr ⟨p, List.mem_append_left _ hp, hid, (h₂.changed_iff_of_not_mem' hq).2 hch⟩
      · refine .inr ⟨p, List.mem_append_right _ hp, by rw [← h₁.id_eq, hid], ?_⟩
        exact (h₁.changed_iff_of_not_mem (hdis p hp)).1 hch
    · rintro (hd | ⟨p, hp, hid, hch⟩)
      · exact .inl (.inl hd)
      · rcases List.mem_append.1 hp with hp | hp
        · have hq : p ∉ qs := fun hq => hdis p hq hp
          exact .inl (.inr ⟨p, hp, hid, (h₂.changed_iff_of_not_mem' hq).1 hch⟩)
        · refine .inr ⟨p, hp, by rw [h₁.id_eq, hid], ?_⟩
          exact (h₁.changed_iff_of_not_mem (hdis p hp)).2 hch

/-- Writing new runs and quantity into one step, and marking it if they differ. -/
theorem set_counts {m r q : Nat} (hm : m < a.length)
    (hd : ∀ id, id ∈ d₂.ids ↔ id ∈ d₁.ids ∨ id = (stepAt a m).id ∧
      (r ≠ (stepAt a m).runs ∨ q ≠ (stepAt a m).quantity)) :
    Reassigned a (a.set m { stepAt a m with runs := r, quantity := q }) [m] d₁ d₂ where
  frame := map_sansCounts_set rfl
  runs p hp := by rw [stepAt_set_of_ne (by simpa using hp)]
  quantity p hp := by rw [stepAt_set_of_ne (by simpa using hp)]
  marks id := by
    rw [hd]
    simp only [List.mem_singleton, exists_eq_left, Changed, stepAt_set_self hm]
    constructor
    · rintro (h | ⟨rfl, h⟩)
      · exact .inl h
      · exact .inr ⟨rfl, h⟩
    · rintro (h | ⟨rfl, h⟩)
      · exact .inl h
      · exact .inr ⟨rfl, h⟩

/-- Starting from no marks, the marks are the identifiers of the steps whose counts changed. -/
theorem marks_iff_changed (h : Reassigned a b ps {} d₂) (hps : ∀ p ∈ ps, p < a.length)
    (id : Ident) : id ∈ d₂.ids ↔ ∃ p < a.length, (stepAt a p).id = id ∧ Changed a b p := by
  rw [h.marks]
  simp only [List.not_mem_nil, false_or]
  constructor
  · rintro ⟨p, hp, hid, hch⟩
    exact ⟨p, hps p hp, hid, hch⟩
  · rintro ⟨p, -, hid, hch⟩
    refine ⟨p, ?_, hid, hch⟩
    by_contra hnot
    unfold Changed at hch
    rw [h.runs p hnot, h.quantity p hnot] at hch
    simp at hch

/-- Setting a step to one with its counts, and otherwise differing at most in its group's
total, reassigns nothing. -/
theorem set_same {m : Nat} {t : Step} (d : DirtySet) (hs : sansCounts t = sansCounts (stepAt a m))
    (hr : t.runs = (stepAt a m).runs) (hq : t.quantity = (stepAt a m).quantity) :
    Reassigned a (a.set m t) [] d d := by
  have hat : ∀ p, (stepAt (a.set m t) p).runs = (stepAt a p).runs ∧
      (stepAt (a.set m t) p).quantity = (stepAt a p).quantity := by
    intro p
    by_cases hp : p = m
    · subst hp
      by_cases hm : p < a.length
      · rw [stepAt_set_self hm]
        exact ⟨hr, hq⟩
      · rw [List.set_eq_of_length_le (by omega)]
        exact ⟨rfl, rfl⟩
    · rw [stepAt_set_of_ne hp]
      exact ⟨rfl, rfl⟩
  exact ⟨map_sansCounts_set hs, fun p _ => (hat p).1, fun p _ => (hat p).2, fun id => by simp⟩

end Reassigned

section Share

/-- What the first `k` members of a group can have been given of `runs`: their shares add up to
at most this. -/
private def shareBound (runs basis count : Nat) (previous : List Nat) (k : Nat) : Nat :=
  if basis = 0 then k * (runs / count) else runs * (previous.take k).sum / basis

private theorem shareBound_succ (runs basis count : Nat) (previous : List Nat) {k : Nat}
    (hk : k < previous.length) :
    shareBound runs basis count previous k +
        (if basis = 0 then runs / count else runs * previous[k] / basis) ≤
      shareBound runs basis count previous (k + 1) := by
  unfold shareBound
  by_cases hb : basis = 0
  · simp [hb, Nat.succ_mul]
  · simp only [hb, if_false]
    rw [List.take_succ_eq_append_getElem hk, List.sum_append, List.sum_singleton, Nat.mul_add]
    exact Nat.div_add_div_le_add_div

private theorem shareBound_le {runs basis count : Nat} {previous : List Nat}
    (hbasis : basis = previous.sum) (hcount : previous.length = count) {k : Nat}
    (hk : k ≤ count) : shareBound runs basis count previous k ≤ runs := by
  subst hcount
  unfold shareBound
  split
  · calc k * (runs / previous.length)
        ≤ previous.length * (runs / previous.length) := Nat.mul_le_mul_right _ hk
      _ ≤ runs := Nat.mul_div_le runs previous.length
  · rename_i hb
    have htake : (previous.take k).sum ≤ basis := hbasis ▸ List.Sublist.sum_le_sum
      (List.take_sublist k previous) (fun _ _ => Nat.zero_le _)
    calc runs * (previous.take k).sum / basis
        ≤ runs * basis / basis := Nat.div_le_div_right (Nat.mul_le_mul_left _ htake)
      _ = runs := Nat.mul_div_cancel runs (Nat.pos_of_ne_zero hb)

/-- Writing runs `r` and quantity `q` into the step at `m`, and marking it when they differ from
what it had. -/
private theorem write_counts (st : List Step) (d : DirtySet) {m : Nat} (r q : Nat)
    (hm : m < st.length) :
    ∃ d', (if ((stepAt st m).runs != r || (stepAt st m).quantity != q) = true then
          (st.set m { stepAt st m with runs := r, quantity := q }, d.mark (stepAt st m).id)
        else (st, d)) = (st.set m { stepAt st m with runs := r, quantity := q }, d') ∧
      ∀ id, id ∈ d'.ids ↔
        id ∈ d.ids ∨ id = (stepAt st m).id ∧ (r ≠ (stepAt st m).runs ∨ q ≠ (stepAt st m).quantity) := by
  split
  · rename_i hc
    refine ⟨_, rfl, fun id => ?_⟩
    have hc' : r ≠ (stepAt st m).runs ∨ q ≠ (stepAt st m).quantity := by
      simp only [Bool.or_eq_true, bne_iff_ne, ne_eq] at hc
      omega
    simp [hc', or_comm]
  · rename_i hc
    simp only [Bool.or_eq_true, bne_iff_ne, ne_eq, not_or, not_not] at hc
    obtain ⟨hr, hq⟩ := hc
    refine ⟨d, ?_, fun id => ?_⟩
    · rw [← hr, ← hq, set_stepAt_self hm]
    · simp [hr, hq]

/-- One member's share: the member at `m` gets runs `r` and quantity `q`, which the running
totals grow by, and its identifier is marked when they differ from what it had. The last member
takes what is left; every other one its share of the runs and at most what is left of the
quantity. -/
theorem shareOut_eq (runs quantity basis count : Nat) (st : List Step) (d : DirtySet)
    (gr gq : Nat) {m : Nat} (prev pos : Nat) (hm : m < st.length) :
    ∃ r q d', shareOut runs quantity basis count (st, d, gr, gq) ((m, prev), pos) =
        (st.set m { stepAt st m with runs := r, quantity := q }, d', gr + r, gq + q) ∧
      (∀ id, id ∈ d'.ids ↔ id ∈ d.ids ∨ id = (stepAt st m).id ∧
        (r ≠ (stepAt st m).runs ∨ q ≠ (stepAt st m).quantity)) ∧
      (pos = count - 1 → r = runs - gr ∧ q = quantity - gq) ∧
      (pos ≠ count - 1 → r = (if basis = 0 then runs / count else runs * prev / basis) ∧
        q = Nat.min (Count.satMul r (stepAt st m).out) (quantity - gq)) := by
  unfold shareOut
  dsimp only
  by_cases hpos : pos = count - 1
  · simp only [hpos, beq_self_eq_true, if_true]
    obtain ⟨d', hw, hd'⟩ := write_counts st d (runs - gr) (quantity - gq) hm
    rw [hw]
    exact ⟨_, _, d', rfl, hd', fun _ => ⟨rfl, rfl⟩, fun h => absurd rfl h⟩
  · have hbeq : (pos == count - 1) = false := by simpa using hpos
    simp only [hbeq, Bool.false_eq_true, if_false, beq_iff_eq]
    obtain ⟨d', hw, hd'⟩ := write_counts st d
      (if basis = 0 then runs / count else runs * prev / basis)
      (Nat.min (Count.satMul (if basis = 0 then runs / count else runs * prev / basis)
        (stepAt st m).out) (quantity - gq)) hm
    rw [hw]
    exact ⟨_, _, d', rfl, hd', fun h => absurd h hpos, fun _ => ⟨rfl, rfl⟩⟩

private theorem getElem_not_mem_take {l : List Nat} (hnd : l.Nodup) {k : Nat}
    (hk : k < l.length) : l[k] ∉ l.take k := by
  intro hmem
  obtain ⟨i, hi, heq⟩ := List.mem_take_iff_getElem.1 hmem
  have := hnd.getElem_inj_iff.1 heq
  omega

/-- What member `k` of a share-out of `quantity` makes, given the members' runs: the last one
what the earlier ones left, every other one what its runs make of that, at most. -/
def sharedQuantity (st : List Step) (members : List Nat) (quantity k m : Nat) : Nat :=
  if k = members.length - 1 then quantity - sumAt st (members.take k) Step.quantity
  else Nat.min (Count.satMul (stepAt st m).runs (stepAt st m).out)
    (quantity - sumAt st (members.take k) Step.quantity)

/-- The quantities of the members are shared out of `quantity` as their runs say. -/
def QuantitiesShared (st : List Step) (members : List Nat) (quantity : Nat) : Prop :=
  ∀ k (hk : k < members.length),
    (stepAt st members[k]).quantity = sharedQuantity st members quantity k members[k]

/-- Sharing runs and a quantity out among distinct members reassigns exactly those members,
whose runs then add up to the runs and whose quantities are shared out of the quantity, adding
up to it. -/
theorem assign_spec {st st' : List Step} {d d' : DirtySet} {members : List Nat}
    {quantity runs : Nat} (h : assign st d members quantity runs = .ok (st', d'))
    (hnd : members.Nodup) (hne : members ≠ []) (hlen : ∀ m ∈ members, m < st.length) :
    Reassigned st st' members d d' ∧ sumAt st' members Step.runs = runs ∧
      sumAt st' members Step.quantity = quantity ∧ QuantitiesShared st' members quantity := by
  unfold assign at h
  obtain ⟨basis, hbasis, h⟩ := ok_of_bind h
  have hbasis := Count.eq_of_sum?_ok hbasis
  dsimp only at h
  injection h with h
  simp only [Prod.mk.injEq] at h
  obtain ⟨rfl, rfl⟩ := h
  set previous := members.map fun m => (stepAt st m).runs with hprevious
  have hcount : 0 < members.length := List.length_pos_iff.2 hne
  -- after `k` members: what they were given, and how much of the runs that can be
  let P : Nat → List Step × DirtySet × Nat × Nat → Prop := fun k acc =>
    Reassigned st acc.1 (members.take k) d acc.2.1 ∧
      acc.2.2.1 = sumAt acc.1 (members.take k) Step.runs ∧
      acc.2.2.2 = sumAt acc.1 (members.take k) Step.quantity ∧ acc.2.2.2 ≤ quantity ∧
      (k < members.length → acc.2.2.1 ≤ shareBound runs basis members.length previous k) ∧
      (k = members.length → acc.2.2.1 = runs ∧ acc.2.2.2 = quantity) ∧
      ∀ j (hj : j < members.length), j < k →
        (stepAt acc.1 members[j]).quantity = sharedQuantity acc.1 members quantity j members[j]
  have h0 : P 0 (st, d, 0, 0) := by
    refine ⟨Reassigned.refl st [] d, rfl, rfl, Nat.zero_le _, fun _ => ?_,
      fun h => absurd h hcount.ne, fun _ _ h => absurd h (Nat.not_lt_zero _)⟩
    simp [shareBound]
  have hfold : P (members.zip previous).length
      ((members.zip previous).zipIdx.foldl (shareOut runs quantity basis members.length)
        (st, d, 0, 0)) := foldl_zipIdx_invariant P h0 ?_
  · have hlen' : (members.zip previous).length = members.length := by simp [previous]
    rw [hlen'] at hfold
    obtain ⟨hre, hruns, hq, -, -, hlast, hshared⟩ := hfold
    rw [List.take_length] at hre hruns hq
    obtain ⟨hr, hq'⟩ := hlast rfl
    exact ⟨hre, hruns ▸ hr, hq ▸ hq', fun j hj => hshared j hj hj⟩
  · rintro k hk ⟨stk, dk, gr, gq⟩ ⟨hre, hgr, hgq, hgqle, hbound, -, hshared⟩
    dsimp only at hre hgr hgq hgqle hbound
    have hkm : k < members.length := by simpa [previous] using hk
    have hkp : k < previous.length := by simpa [previous] using hkm
    have hm : members[k] < stk.length := hre.length_eq ▸ hlen _ (List.getElem_mem hkm)
    rw [List.getElem_zip]
    obtain ⟨r, q, d', heq, hd', hlast, hshare⟩ :=
      shareOut_eq runs quantity basis members.length stk dk gr gq previous[k] k hm
    rw [heq]
    dsimp only [P]
    have hnot := getElem_not_mem_take hnd hkm
    have hset : stepAt (stk.set members[k] { stepAt stk members[k] with runs := r, quantity := q })
        members[k] = { stepAt stk members[k] with runs := r, quantity := q } := stepAt_set_self hm _
    have htake := List.take_succ_eq_append_getElem hkm
    refine ⟨?_, ?_, ?_, ?_, fun hk' => ?_, fun hk' => ?_, fun j hj hjk => ?_⟩
    · rw [htake]
      exact hre.trans (Reassigned.set_counts hm hd') (by simpa using hnot)
    · rw [htake, sumAt_append, sumAt_singleton, sumAt_set_of_not_mem hnot, hset, hgr]
    · rw [htake, sumAt_append, sumAt_singleton, sumAt_set_of_not_mem hnot, hset, hgq]
    · by_cases hpos : k = members.length - 1
      · have := (hlast hpos).2
        omega
      · have hq : q ≤ quantity - gq := (hshare hpos).2 ▸ Nat.min_le_right _ _
        omega
    · have hpos : k ≠ members.length - 1 := by omega
      rw [(hshare hpos).1]
      exact (Nat.add_le_add_right (hbound hkm) _).trans (shareBound_succ _ _ _ _ hkp)
    · have hpos : k = members.length - 1 := by omega
      obtain ⟨hr, hq⟩ := hlast hpos
      have hgr' : gr ≤ runs := (hbound hkm).trans
        (shareBound_le hbasis (by simp [previous]) hkm.le)
      omega
    · rcases Nat.lt_succ_iff_lt_or_eq.1 hjk with hjk | rfl
      · have hne : members[j] ≠ members[k] := fun heq => by
          have := hnd.getElem_inj_iff.1 heq
          omega
        have hnotj : members[k] ∉ members.take j := fun hmem =>
          hnot (List.take_subset_take_left _ hjk.le hmem)
        rw [stepAt_set_of_ne hne, hshared j hj hjk]
        unfold sharedQuantity
        rw [sumAt_set_of_not_mem hnotj, stepAt_set_of_ne hne]
      · rw [hset]
        unfold sharedQuantity
        rw [sumAt_set_of_not_mem hnot, hset, ← hgq]
        by_cases hpos : j = members.length - 1
        · rw [if_pos hpos]
          exact (hlast hpos).2
        · rw [if_neg hpos]
          exact (hshare hpos).2

end Share

end Step

end Fabrication
