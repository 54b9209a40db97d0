import Fabrication.Proofs.Outcome
import Fabrication.Quantity

/-!
# Required quantities are always worked out

A material efficiency or a facility bonus of `pct` percent cuts a quantity by the factor
`1 - pct / 100` (`Decimal.reduction`). For a percentage in range (a mantissa below `2^96` and
at most 28 places) neither the quotient by a hundred nor the difference from one overflows, so
the factor, and with it every required quantity, is always worked out
(`requiredQuantity_ok`); a product that overflows is handled by the formula itself.

The quotient comes from long division (`Decimal.divSteps`). Each round adds digits while the
scale stays at most 28 and the mantissa below the bound, and a round whose mantissa reaches the
bound drops one digit again, which a positive scale always allows. What comes out is a
`SafeQuotient`: in range, and with room for one more unit when it has no places, which is what
the difference from one needs (`divSteps_ok`, `sub_one_ok`).
-/

namespace Fabrication

namespace Decimal

/-- A decimal in range: a mantissa below `2^96` and at most 28 places. -/
def InRange (d : Decimal) : Prop := d.mantissa < mantissaBound ∧ d.scale ≤ maxScale

theorem mantissaBound_eq : mantissaBound = 79228162514264337593543950336 := rfl

/-- A quotient mantissa `q` at scale `s` as long division leaves it: in range, and with room
for one more unit when it has no places. -/
def SafeQuotient (q : Nat) (s : Int) : Prop :=
  q < mantissaBound ∧ 0 ≤ s ∧ s ≤ 28 ∧ (s = 0 → q + 1 < mantissaBound)

/-- Dropping digits that lie after the point keeps a quotient safe. -/
theorem SafeQuotient.div_pow {q k : Nat} {s : Int} (h : SafeQuotient q s) (hk : k ≤ s) :
    SafeQuotient (q / Nat.pow 10 k) (s - k) := by
  obtain ⟨hq, hs0, hs28, hs⟩ := h
  have hle : q / Nat.pow 10 k ≤ q := Nat.div_le_self _ _
  refine ⟨by omega, by omega, by omega, fun hz => ?_⟩
  by_cases hk0 : k = 0
  · subst hk0
    have hone : q / Nat.pow 10 0 = q := Nat.div_one q
    rw [hone]
    exact hs (by omega)
  · have hten : q / Nat.pow 10 k ≤ q / 10 := by
      apply Nat.div_le_div_left _ (by decide)
      calc 10 = Nat.pow 10 1 := rfl
        _ ≤ Nat.pow 10 k := Nat.pow_le_pow_right (by decide) (by omega)
    rw [mantissaBound_eq] at hq ⊢
    omega

section RunningMax

theorem le_foldl_max_start (l : List Nat) (a : Nat) : a ≤ l.foldl Nat.max a := by
  induction l generalizing a with
  | nil => exact Nat.le_refl a
  | cons y l ih => exact Nat.le_trans (Nat.le_max_left a y) (ih _)

theorem le_foldl_max {l : List Nat} (a : Nat) {x : Nat} (hx : x ∈ l) : x ≤ l.foldl Nat.max a := by
  induction l generalizing a with
  | nil => cases hx
  | cons y l ih =>
    rcases List.mem_cons.1 hx with rfl | hx
    · exact Nat.le_trans (Nat.le_max_right a x) (le_foldl_max_start l _)
    · exact ih _ hx

/-- A running maximum is its start or an element of the list. -/
theorem foldl_max_mem (l : List Nat) (a : Nat) : l.foldl Nat.max a = a ∨ l.foldl Nat.max a ∈ l := by
  induction l generalizing a with
  | nil => exact .inl rfl
  | cons y l ih =>
    rcases ih (Nat.max a y) with h | h
    · rw [List.foldl_cons, h]
      rcases Nat.le_total a y with hay | hay
      · have hmax : Nat.max a y = y := Nat.max_eq_right hay
        exact .inr (by rw [hmax]; exact List.mem_cons_self)
      · exact .inl (Nat.max_eq_left hay)
    · exact .inr (List.mem_cons_of_mem _ h)

end RunningMax

/-- The digits a quotient may still take keep it in range and the scale at most 28, and there
is at least one when it has no places and room for one. -/
theorem extraDigits_spec {q k : Nat} {s : Int} (hq : q < mantissaBound) (hs : 0 ≤ s)
    (h : extraDigits q s = some k) :
    q * Nat.pow 10 k < mantissaBound ∧ k ≤ 9 ∧ (s < 28 → s + k ≤ 28) ∧
      (s = 0 → q * 10 < mantissaBound → 0 < k) := by
  unfold extraDigits at h
  generalize hfits : ((List.range 10).filter fun k => q * Nat.pow 10 k < mantissaBound).foldl
    Nat.max 0 = fits at h
  have hfit : q * Nat.pow 10 fits < mantissaBound ∧ fits ≤ 9 := by
    rcases foldl_max_mem _ 0 with h0 | hmem
    · rw [hfits] at h0
      subst h0
      simpa using hq
    · rw [hfits] at hmem
      simp only [List.mem_filter, List.mem_range, decide_eq_true_eq] at hmem
      exact ⟨hmem.2, by omega⟩
  have hk : k ≤ fits ∧ (s ≤ 19 → k = fits) ∧ (19 < s → k ≤ (28 - s).toNat) := by
    split at h
    · dsimp only at h
      split at h
      · cases h
      · obtain rfl := Option.some.inj h
        exact ⟨Nat.min_le_left _ _, by omega, fun _ => Nat.min_le_right _ _⟩
    · dsimp only at h
      split at h
      · cases h
      · obtain rfl := Option.some.inj h
        exact ⟨Nat.le_refl _, fun _ => rfl, by omega⟩
  refine ⟨?_, by omega, fun h28 => ?_, fun hs0 hten => ?_⟩
  · calc q * Nat.pow 10 k ≤ q * Nat.pow 10 fits :=
          Nat.mul_le_mul_left _ (Nat.pow_le_pow_right (by decide) hk.1)
      _ < mantissaBound := hfit.1
  · by_cases h19 : s ≤ 19
    · omega
    · have := hk.2.2 (by omega)
      omega
  · have hone : 1 ≤ fits := by
      rw [← hfits]
      exact le_foldl_max 0 (List.mem_filter.2 ⟨List.mem_range.2 (by decide),
        decide_eq_true (by simpa using hten)⟩)
    have := hk.2.1 (by omega)
    omega

theorem extraDigits_isSome (q : Nat) {s : Int} (hs : 0 ≤ s) : (extraDigits q s).isSome := by
  unfold extraDigits
  dsimp only
  -- whichever cap applies, the count is a natural number, so the scale stays nonnegative
  split <;> split
  · omega
  · rfl
  · omega
  · rfl

/-- Dropping the last digit of a mantissa below twice the bound, at a positive scale, leaves a
safe quotient. -/
theorem shedOverflow_ok {v : Nat} {s : Int} (sticky : Bool) (hv : v < 2 * mantissaBound)
    (hs : 0 < s) (hs28 : s ≤ 28) :
    ∃ q t, shedOverflow v s sticky = .ok (q, t) ∧ SafeQuotient q t := by
  unfold shedOverflow
  rw [if_neg (by omega)]
  have hq : v / 10 + 2 < mantissaBound := by
    rw [mantissaBound_eq] at hv ⊢
    omega
  refine ⟨_, _, rfl, ?_, by omega, by omega, fun _ => ?_⟩
  · split_ifs <;> omega
  · split_ifs <;> omega

/-- Rounding a quotient at a positive scale by its remainder leaves it safe. -/
theorem roundQuotient_ok {q r b : Nat} {s : Int} (hq : q < mantissaBound) (hs : 0 < s)
    (hs28 : s ≤ 28) : ∃ q' t, roundQuotient q r b s = .ok (q', t) ∧ SafeQuotient q' t := by
  unfold roundQuotient
  split_ifs with hup hfit
  · exact ⟨_, _, rfl, hfit, by omega, hs28, fun _ => by omega⟩
  · exact shedOverflow_ok true (by omega) hs hs28
  · exact ⟨_, _, rfl, hq, by omega, hs28, fun _ => by omega⟩

/-- Long division from a safe start, with a round of fuel for each place still open, gives a
safe quotient: every round either stops, rounds at a positive scale, or adds digits that fit. -/
theorem divSteps_ok {b : Nat} (hb : 0 < b) (fuel : Nat) : ∀ {q r : Nat} {s : Int} (had : Bool),
    q < mantissaBound → r < b → 0 ≤ s → s ≤ 28 → (s = 0 → q * 10 < mantissaBound) →
    29 ≤ fuel + s → ∃ q' t had', divSteps b q r s had fuel = .ok (q', t, had') ∧ SafeQuotient q' t := by
  induction fuel with
  | zero => intro q r s had _ _ _ hs28 _ hfuel; omega
  | succ fuel ih =>
    intro q r s had hq hr hs0 hs28 hz hfuel
    rw [divSteps]
    dsimp only
    by_cases hr0 : r = 0
    · rw [if_pos hr0, if_pos hs0]
      refine ⟨q, s, had, rfl, hq, hs0, hs28, fun h => ?_⟩
      have hten := hz h
      rw [mantissaBound_eq] at hten ⊢
      omega
    rw [if_neg hr0]
    by_cases h28 : s = 28
    · rw [if_pos h28]
      obtain ⟨q', t, hround, hsafe⟩ := roundQuotient_ok (r := r) (b := b) hq (by omega) hs28
      rw [hround]
      exact ⟨q', t, true, rfl, hsafe⟩
    rw [if_neg h28]
    obtain ⟨k, hk⟩ := Option.isSome_iff_exists.1 (extraDigits_isSome q hs0)
    obtain ⟨hfit, hk9, hscale, hpos⟩ := extraDigits_spec hq hs0 hk
    rw [hk]
    split
    · rename_i hnone
      cases hnone
    · -- no digit fits: round, which the scale allows since a quotient without places has room
      rename_i hzero
      obtain rfl : k = 0 := Option.some.inj hzero
      have hs : 0 < s := by
        rcases Int.lt_or_eq_of_le hs0 with hs | hs
        · exact hs
        · exact absurd (hpos hs.symm (hz hs.symm)) (Nat.lt_irrefl 0)
      obtain ⟨q', t, hround, hsafe⟩ := roundQuotient_ok (r := r) (b := b) hq hs hs28
      rw [hround]
      exact ⟨q', t, true, rfl, hsafe⟩
    · rename_i j hj hsome
      have hk0 : 0 < j := Nat.pos_of_ne_zero hj
      obtain rfl : k = j := Option.some.inj hsome
      have hP : Nat.pow 10 k ≤ 1000000000 := Nat.pow_le_pow_right (n := 10) (by decide) hk9
      have hPpos : 0 < Nat.pow 10 k := Nat.pow_pos (by decide)
      have hdiv : r * Nat.pow 10 k / b < Nat.pow 10 k :=
        (Nat.div_lt_iff_lt_mul hb).2 (by
          rw [Nat.mul_comm (Nat.pow 10 k) b]
          exact Nat.mul_lt_mul_of_pos_right hr hPpos)
      rw [if_neg (Nat.not_le.2 hfit)]
      split
      · obtain ⟨q', t, hshed, hsafe⟩ := shedOverflow_ok (r * Nat.pow 10 k % b != 0)
          (v := q * Nat.pow 10 k + r * Nat.pow 10 k / b) (s := s + (k : Nat))
          (by rw [mantissaBound_eq] at hfit ⊢; omega) (by omega) (by have := hscale (by omega); omega)
        rw [hshed]
        exact ⟨q', t, true, rfl, hsafe⟩
      · rename_i hunder
        exact ih true (Nat.lt_of_not_le hunder) (Nat.mod_lt _ hb) (by omega)
          (by have := hscale (by omega); omega) (fun h => by omega) (by omega)

theorem SafeQuotient.trimEights {q : Nat} {s : Int} (h : SafeQuotient q s) (n : Nat) :
    SafeQuotient (trimQuotient.trimEights q s n).1 (trimQuotient.trimEights q s n).2 := by
  induction n generalizing q s with
  | zero => exact h
  | succ n ih =>
    rw [trimQuotient.trimEights]
    split
    · rename_i hc
      exact ih (h.div_pow (k := 8) (by omega))
    · exact h

/-- A cut of `k` trailing digits, made only where the scale allows it, keeps a quotient safe. -/
theorem SafeQuotient.cut {q : Nat} {s : Int} (h : SafeQuotient q s) {d : Nat} {j : Int} (k : Nat)
    (hd : d = Nat.pow 10 k) (hj : j = k) (c : Prop) [Decidable c] (hc : c → j ≤ s) :
    SafeQuotient (if c then (q / d, s - j) else (q, s)).1 (if c then (q / d, s - j) else (q, s)).2 := by
  subst hd hj
  split_ifs with hcond
  · exact h.div_pow (hc hcond)
  · exact h

/-- Taking trailing zeros off a quotient keeps it safe: each cut divides by a power of ten
that the scale allows. -/
theorem SafeQuotient.trim {q : Nat} {s : Int} (h : SafeQuotient q s) :
    SafeQuotient (trimQuotient q s).1 (trimQuotient q s).2 := by
  have h8 := h.trimEights 4
  unfold Decimal.trimQuotient
  generalize trimQuotient.trimEights q s 4 = p at h8
  obtain ⟨q, s⟩ := p
  dsimp only at h8 ⊢
  refine SafeQuotient.cut ?_ 1 rfl rfl _ fun hc => hc.2.1
  refine SafeQuotient.cut ?_ 2 rfl rfl _ fun hc => hc.2.1
  exact SafeQuotient.cut h8 4 rfl rfl _ fun hc => hc.2.1

theorem SafeQuotient.toNat {q : Nat} {s : Int} (h : SafeQuotient q s) :
    SafeQuotient q (s.toNat : Int) := by
  rw [Int.toNat_of_nonneg h.2.1]
  exact h

/-- A percentage in range divided by a hundred gives a safe quotient. -/
theorem div?_hundred_ok {d : Decimal} (hd : d.InRange) :
    ∃ part, div? d hundred = .ok part ∧ SafeQuotient part.mantissa part.scale := by
  obtain ⟨hm, hs⟩ := hd
  unfold div?
  rw [if_neg (by decide)]
  by_cases hz : d.isZero = true
  · rw [if_pos hz]
    exact ⟨zero, rfl, by simp [SafeQuotient, zero, mantissaBound_eq]⟩
  rw [if_neg hz]
  obtain ⟨q, t, had, hsteps, hsafe⟩ := divSteps_ok (b := hundred.mantissa) (by decide) 60 false
    (q := d.mantissa / hundred.mantissa) (r := d.mantissa % hundred.mantissa)
    (s := (d.scale : Int) - hundred.scale)
    (Nat.lt_of_le_of_lt (Nat.div_le_self _ _) hm) (Nat.mod_lt _ (by decide))
    (by simp [hundred]) (by simp [hundred, maxScale] at hs ⊢; omega)
    (fun _ => by
      show d.mantissa / 100 * 10 < mantissaBound
      rw [mantissaBound_eq] at hm ⊢
      omega)
    (by simp [hundred]; omega)
  dsimp only
  rw [hsteps]
  dsimp only
  cases had
  · exact ⟨_, rfl, hsafe.toNat⟩
  · exact ⟨_, rfl, hsafe.trim.toNat⟩

theorem div_hundred_ok {d : Decimal} (hd : d.InRange) :
    ∃ part, div d hundred = .ok part ∧ SafeQuotient part.mantissa part.scale := by
  obtain ⟨part, hdiv, hsafe⟩ := div?_hundred_ok hd
  refine ⟨part, ?_, hsafe⟩
  unfold div
  rw [hdiv]

theorem divPow10HalfEven_le (n k : Nat) : divPow10HalfEven n k ≤ n / Nat.pow 10 k + 1 := by
  unfold divPow10HalfEven
  dsimp only
  split_ifs <;> omega

theorem divPow10HalfEven_zero (n : Nat) : divPow10HalfEven n 0 = n := by
  unfold divPow10HalfEven
  simp [Nat.mod_one]

theorem fitWithin_isSome {p s : Nat} (hp : divPow10HalfEven p s < mantissaBound) :
    ∀ (left r : Nat), r ≤ s → s < r + left → (fitWithin p s left r).isSome
  | 0, _, _, hlt => by omega
  | left + 1, r, hr, hlt => by
    rw [fitWithin]
    split
    · rfl
    · rename_i hm
      have hne : r ≠ s := fun hrs => hm (hrs ▸ hp)
      exact fitWithin_isSome hp left (r + 1) (by omega) (by omega)

/-- A value fits in range as soon as its whole part, rounded, is below the bound. -/
theorem fit_isSome {p s : Nat} (hp : divPow10HalfEven p s < mantissaBound) : (fit p s).isSome :=
  fitWithin_isSome hp _ _ (Nat.sub_le _ _) (by omega)

/-- A value at most one more than a safe quotient has its whole part in range: at a positive
scale it is at most a tenth of the mantissa and two, and without places the quotient has room
for the one. -/
theorem SafeQuotient.divPow10HalfEven_lt {m n : Nat} {s : Nat} (h : SafeQuotient m s)
    (hn : n ≤ Nat.pow 10 s + m) : divPow10HalfEven n s < mantissaBound := by
  obtain ⟨hm, -, -, hroom⟩ := h
  by_cases hs : s = 0
  · subst hs
    have hroom := hroom rfl
    have hpow : Nat.pow 10 0 = 1 := rfl
    rw [divPow10HalfEven_zero]
    rw [hpow] at hn
    omega
  · refine Nat.lt_of_le_of_lt (divPow10HalfEven_le _ _) ?_
    have hpos : 0 < Nat.pow 10 s := Nat.pow_pos (by decide)
    have hten : 10 ≤ Nat.pow 10 s := by
      calc 10 = Nat.pow 10 1 := rfl
        _ ≤ Nat.pow 10 s := Nat.pow_le_pow_right (by decide) (by omega)
    have hwhole : (Nat.pow 10 s + m) / Nat.pow 10 s ≤ 1 + m / 10 := by
      rw [Nat.add_comm, Nat.add_div_right _ hpos, Nat.add_comm]
      exact Nat.add_le_add_left (Nat.div_le_div_left hten (by decide)) 1
    have hle := Nat.div_le_div_right (c := Nat.pow 10 s) hn
    rw [mantissaBound_eq] at hm ⊢
    omega

/-- One less a decimal, both at its scale, is at most the power of ten and the mantissa
together. -/
theorem natAbs_one_sub_le (d : Decimal) :
    (one.atScale d.scale + d.neg.atScale d.scale).natAbs ≤ Nat.pow 10 d.scale + d.mantissa := by
  have hone : one.atScale d.scale = (Nat.pow 10 d.scale : Nat) := by
    show (1 : Int) * ((Nat.pow 10 (d.scale - 0) : Nat) : Int) = _
    rw [Nat.sub_zero, Int.one_mul]
  have hneg : d.neg.atScale d.scale = -d.signed := by
    unfold atScale
    rw [show d.scale - d.neg.scale = 0 from Nat.sub_self _]
    unfold signed neg
    cases d.negative <;> simp
  rw [hone, hneg]
  unfold signed
  generalize Nat.pow 10 d.scale = P
  split <;> omega

/-- One less a safe quotient is in range. -/
theorem sub_one_ok {part : Decimal} (h : SafeQuotient part.mantissa part.scale) :
    ∃ x, sub one part = .ok x := by
  have hsome : (sub? one part).isSome := by
    unfold sub? add?
    rw [if_neg (by decide), if_neg (by decide)]
    split
    · rfl
    unfold ofExact
    rw [Option.isSome_map]
    apply fit_isSome
    have hscale : Nat.max one.scale part.neg.scale = part.scale := Nat.zero_max _
    rw [hscale]
    exact h.divPow10HalfEven_lt (natAbs_one_sub_le part)
  obtain ⟨x, hx⟩ := Option.isSome_iff_exists.1 hsome
  exact ⟨x, by unfold sub; rw [hx]⟩

/-- The factor left by a reduction of a percentage in range is always worked out. -/
theorem reduction_ok {d : Decimal} (hd : d.InRange) : ∃ f, reduction d = .ok f := by
  obtain ⟨part, hdiv, hsafe⟩ := div_hundred_ok hd
  obtain ⟨left, hsub⟩ := sub_one_ok hsafe
  refine ⟨max left zero, ?_⟩
  unfold reduction
  rw [hdiv]
  show sub one part >>= _ = _
  rw [hsub]
  rfl

end Decimal

/-- An adjusted quantity is always worked out for an efficiency below the mantissa bound and a
bonus in range. -/
theorem adjustedQuantity_ok (base runs : Nat) {me : Nat} {bonus : Decimal}
    (hme : me < Decimal.mantissaBound) (hbonus : bonus.InRange) :
    ∃ q, adjustedQuantity base runs me bonus = .ok q := by
  obtain ⟨f, hf⟩ := Decimal.reduction_ok (d := Decimal.ofNat me) ⟨hme, Nat.zero_le _⟩
  obtain ⟨g, hg⟩ := Decimal.reduction_ok hbonus
  unfold adjustedQuantity
  rw [hf]
  simp only [bind, Except.bind]
  rw [hg]
  exact ⟨_, rfl⟩

/-- A required quantity is always worked out for an efficiency below the mantissa bound and a
bonus in range. -/
theorem requiredQuantity_ok (base runs : Nat) (a : Activity) {me : Nat} {bonus : Decimal}
    (hme : me < Decimal.mantissaBound) (hbonus : bonus.InRange) :
    ∃ q, requiredQuantity base runs a me bonus = .ok q := by
  unfold requiredQuantity
  apply adjustedQuantity_ok base runs _ hbonus
  split
  · exact hme
  · exact Nat.lt_of_le_of_lt (Nat.zero_le _) hme

end Fabrication
