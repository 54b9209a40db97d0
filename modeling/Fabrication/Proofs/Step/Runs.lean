import Fabrication.Quantity
import Fabrication.Duration
import Mathlib

/-!
# Runs for a quantity

`runsFor q out` is the least number of runs that make `q` units at `out` units a run
(`runsFor_le_iff`). Splitting a step, and sharing a recalculated quantity among the members
of a group, both hand the runs out part by part, each part with the units its runs make out
of what is left of the quantity. Such a part needs exactly its runs (`runsFor_share`), and
the units handed out stay what the runs handed out make, up to the quantity (`share_add`).
The last part, which takes the rest, needs the rest of the runs (`runsFor_rest`). `splitRuns`
hands all runs out (`sum_splitRuns`).
-/

namespace Fabrication

theorem divCeil_le_iff {q d n : Nat} (hd : 0 < d) : Count.divCeil q d ≤ n ↔ q ≤ d * n := by
  unfold Count.divCeil
  rw [← Nat.lt_succ_iff, Nat.div_lt_iff_lt_mul hd, Nat.succ_mul, Nat.mul_comm n d]
  omega

theorem runsFor_le_iff {q out n : Nat} (hout : 0 < out) : runsFor q out ≤ n ↔ q ≤ out * n := by
  unfold runsFor
  rw [show Nat.max out 1 = out from Nat.max_eq_left hout, divCeil_le_iff hout]

/-- The runs for a quantity are those that every bound on the runs bounds. -/
theorem runsFor_eq {q out p : Nat} (hout : 0 < out) (h : ∀ n, q ≤ out * n ↔ p ≤ n) :
    runsFor q out = p :=
  Nat.le_antisymm ((runsFor_le_iff hout).2 ((h p).2 (Nat.le_refl p)))
    ((h _).1 ((runsFor_le_iff hout).1 (Nat.le_refl _)))

theorem runsFor_mul {runs out : Nat} (hout : 0 < out) : runsFor (runs * out) out = runs := by
  apply runsFor_eq hout
  intro n
  rw [Nat.mul_comm runs out]
  exact Nat.mul_le_mul_left_iff hout

/-- A part of `p` runs after `R` runs, with the units `p` runs make out of what is left of
`Q`, needs exactly `p` runs, as long as the runs handed out stay within those for `Q`. -/
theorem runsFor_share {Q out R p : Nat} (hout : 0 < out) (hp : R + p ≤ runsFor Q out) :
    runsFor (Nat.min (p * out) (Q - Nat.min (out * R) Q)) out = p := by
  apply runsFor_eq hout
  intro n
  rw [Nat.mul_comm p out, Nat.min_eq_min, Nat.min_eq_min]
  have hle : out * p ≤ out * n ↔ p ≤ n := Nat.mul_le_mul_left_iff hout
  have hlt : out * p < out * n + out ↔ p ≤ n := by
    rw [← Nat.mul_add_one, Nat.mul_lt_mul_left hout]
    omega
  have hQ : out * R + out * p < Q + out := by
    rw [← Nat.mul_add]
    rcases Nat.eq_zero_or_pos (R + p) with h0 | hpos
    · rw [h0, Nat.mul_zero]
      omega
    · refine Nat.lt_of_not_le fun hle' => ?_
      have : Q ≤ out * (R + p - 1) := by rw [Nat.mul_sub_one]; omega
      have := (runsFor_le_iff hout).2 this
      omega
  have hR : out * R ≤ Q ∨ p = 0 := by
    by_cases h : out * R ≤ Q
    · exact .inl h
    · have := (runsFor_le_iff (q := Q) (n := R) hout).2 (by omega)
      exact .inr (by omega)
  omega

/-- The units handed out after a part are what the runs handed out make, up to `Q`. -/
theorem share_add (Q out R p : Nat) :
    Nat.min (out * R) Q + Nat.min (p * out) (Q - Nat.min (out * R) Q) =
      Nat.min (out * (R + p)) Q := by
  rw [Nat.mul_add, Nat.mul_comm p out]
  simp only [Nat.min_eq_min]
  omega

/-- The last part, with what is left of `Q`, needs the runs not handed out. -/
theorem runsFor_rest {Q out R : Nat} (hout : 0 < out) (hR : R ≤ runsFor Q out) :
    runsFor (Q - Nat.min (out * R) Q) out = runsFor Q out - R := by
  apply runsFor_eq hout
  intro n
  have h := runsFor_le_iff (q := Q) (n := R + n) hout
  rw [Nat.mul_add] at h
  rw [Nat.min_eq_min]
  omega

theorem sum_range_ite_lt (k r q : Nat) :
    ((List.range k).map fun i => if i < r then q + 1 else q).sum = k * q + min r k := by
  induction k with
  | zero => simp
  | succ k ih =>
    rw [List.range_succ, List.map_append, List.sum_append, ih, Nat.succ_mul]
    by_cases h : k < r
    · simp [h]
      omega
    · simp [h]
      omega

theorem sum_range_ite_last (k a b : Nat) :
    ((List.range (k + 1)).map fun i => if i + 1 < k + 1 then a else b).sum = k * a + b := by
  rw [List.range_succ, List.map_append, List.sum_append]
  have hconst : (List.range k).map (fun i => if i + 1 < k + 1 then a else b) =
      List.replicate k a := by
    rw [List.eq_replicate_iff]
    refine ⟨by simp, fun x hx => ?_⟩
    obtain ⟨i, hi, rfl⟩ := List.mem_map.1 hx
    simp [List.mem_range.1 hi]
  rw [hconst]
  simp [List.sum_replicate]

/-- Splitting hands all runs out. -/
theorem sum_splitRuns (runs max : Nat) (strategy : SplitStrategy) :
    (splitRuns runs max strategy).sum = runs := by
  unfold splitRuns
  dsimp only
  split
  · simp
  · rename_i hmore
    have hm : 0 < Nat.max max 1 := Nat.lt_of_lt_of_le Nat.zero_lt_one (Nat.le_max_right max 1)
    have hjobs : 0 < Count.divCeil runs (Nat.max max 1) := by
      refine Nat.pos_of_ne_zero fun h0 => ?_
      have := (divCeil_le_iff (q := runs) (n := 0) hm).1 (by omega)
      omega
    cases strategy with
    | even =>
      dsimp only
      rw [sum_range_ite_lt, Nat.min_eq_left (Nat.le_of_lt (Nat.mod_lt _ hjobs)),
        Nat.div_add_mod]
    | fill =>
      dsimp only
      obtain ⟨k, hk⟩ : ∃ k, Count.divCeil runs (Nat.max max 1) = k + 1 :=
        ⟨_, (Nat.succ_pred_eq_of_pos hjobs).symm⟩
      rw [hk, sum_range_ite_last, Nat.add_sub_cancel]
      have : Nat.max max 1 * k < runs := by
        refine Nat.lt_of_not_le fun hle => ?_
        have := (divCeil_le_iff hm).2 hle
        omega
      rw [Nat.mul_comm k]
      omega

end Fabrication
