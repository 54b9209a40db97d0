import Fabrication.Proofs.Quantity

/-!
# Required quantities lie between the runs and the uncut quantity

For a bonus not below zero, the quantity of an input that `runs` runs use is at least one unit
per run and at most the uncut quantity `base * runs` (`adjustedQuantity_bounded`), for every
activity. The factors that efficiency and bonus leave are at most one (`reduction_atMost`), and
a product by such a factor, each rounding, the ceiling and the reading as a count keep a value
at most a whole bound (`Decimal.AtMost`), since the bound lies on every grid of places.

The quantity is not monotone, though: a cut product of `2^64` or more is read as no count at
all and falls back to one unit per run, while a product past the decimal range is held at the
largest count. One more run, or a lower efficiency, can then give far fewer units
(`adjustedQuantity_drops_past_largest_count`).
-/

namespace Fabrication

namespace Decimal

/-- A decimal that is not negative and at most `n`. -/
def AtMost (n : Nat) (d : Decimal) : Prop := d.negative = false ∧ d.mantissa ≤ n * Nat.pow 10 d.scale

/-- The whole part of a value at most a whole bound is at most the bound. -/
theorem div_pow_ten_le {n k M : Nat} (h : n ≤ M * Nat.pow 10 k) : n / Nat.pow 10 k ≤ M :=
  Nat.div_le_of_le_mul (by rw [Nat.mul_comm]; exact h)

/-- A quotient by a power of ten, rounded up only when a remainder is left, is at most any whole
bound of the dividend: with a remainder the quotient itself lies below the bound. -/
theorem roundedQuotient_le {n k M r : Nat} (h : n ≤ M * Nat.pow 10 k)
    (hr : r = n / Nat.pow 10 k ∨ (0 < n % Nat.pow 10 k ∧ r = n / Nat.pow 10 k + 1)) : r ≤ M := by
  have hq := div_pow_ten_le h
  rcases hr with rfl | ⟨hrem, rfl⟩
  · exact hq
  · have hsplit := Nat.div_add_mod n (Nat.pow 10 k)
    refine Nat.succ_le_of_lt (Nat.lt_of_not_le fun hge => ?_)
    have hmul : Nat.pow 10 k * M ≤ Nat.pow 10 k * (n / Nat.pow 10 k) := Nat.mul_le_mul_left _ hge
    rw [Nat.mul_comm] at h
    omega

theorem divPow10HalfEven_le_of_le {n k M : Nat} (h : n ≤ M * Nat.pow 10 k) :
    divPow10HalfEven n k ≤ M := by
  have hpos : 0 < Nat.pow 10 k := Nat.pow_pos (by decide)
  unfold divPow10HalfEven
  dsimp only
  split_ifs with hup
  · exact roundedQuotient_le h (.inr ⟨by omega, rfl⟩)
  · exact roundedQuotient_le h (.inl rfl)

theorem divPow10HalfUp_le_of_le {n k M : Nat} (h : n ≤ M * Nat.pow 10 k) :
    divPow10HalfUp n k ≤ M := by
  have hpos : 0 < Nat.pow 10 k := Nat.pow_pos (by decide)
  unfold divPow10HalfUp
  dsimp only
  split_ifs with hup
  · exact roundedQuotient_le h (.inr ⟨by omega, rfl⟩)
  · exact roundedQuotient_le h (.inl rfl)

/-- Bringing a value into range rounds it at some number of dropped digits, at most its scale. -/
theorem fitWithin_spec {p s m k : Nat} :
    ∀ {left r : Nat}, fitWithin p s left r = some (m, k) → r + left ≤ s + 1 →
      ∃ j, j ≤ s ∧ m = divPow10HalfEven p j ∧ k = s - j
  | 0, _, h, _ => by cases h
  | left + 1, r, h, hr => by
    unfold fitWithin at h
    dsimp only at h
    split_ifs at h
    · obtain ⟨rfl, rfl⟩ := Prod.mk.inj (Option.some.inj h)
      exact ⟨r, by omega, rfl, rfl⟩
    · exact fitWithin_spec h (by omega)

theorem pow_ten_add (i j : Nat) : Nat.pow 10 (i + j) = Nat.pow 10 i * Nat.pow 10 j :=
  Nat.pow_add 10 i j

theorem pow_ten_split {s j : Nat} (hj : j ≤ s) :
    Nat.pow 10 s = Nat.pow 10 j * Nat.pow 10 (s - j) := by
  rw [← pow_ten_add, Nat.add_sub_cancel' hj]

/-- Bringing a value into range keeps it at most a whole bound. -/
theorem fit_le {p s m k N : Nat} (h : fit p s = some (m, k)) (hp : p ≤ N * Nat.pow 10 s) :
    m ≤ N * Nat.pow 10 k := by
  obtain ⟨j, hj, rfl, rfl⟩ := fitWithin_spec h (by omega)
  apply divPow10HalfEven_le_of_le
  rwa [pow_ten_split hj, Nat.mul_comm (Nat.pow 10 j), ← Nat.mul_assoc] at hp

theorem AtMost.zero (N : Nat) : AtMost N zero := ⟨rfl, Nat.zero_le _⟩

theorem AtMost.ofNat (n : Nat) : AtMost n (ofNat n) := ⟨rfl, by simp [Decimal.ofNat]⟩

/-- A product of decimals at most `N` and `M` is at most `N * M`, rounding included. -/
theorem AtMost.mul? {N M : Nat} {a b c : Decimal} (ha : AtMost N a) (hb : AtMost M b)
    (h : mul? a b = some c) : AtMost (N * M) c := by
  unfold Decimal.mul? at h
  split_ifs at h with hz
  · cases h
    exact AtMost.zero _
  dsimp only at h
  split_ifs at h
  · cases h
    exact AtMost.zero _
  · obtain ⟨⟨m, k⟩, hfit, rfl⟩ := Option.map_eq_some_iff.1 h
    refine ⟨by simp [ha.1, hb.1], fit_le hfit ?_⟩
    calc a.mantissa * b.mantissa ≤ (N * Nat.pow 10 a.scale) * (M * Nat.pow 10 b.scale) :=
          Nat.mul_le_mul ha.2 hb.2
      _ = N * M * Nat.pow 10 (a.scale + b.scale) := by
          rw [pow_ten_add]
          ac_rfl

/-- Rounding to fewer places keeps a value at most a whole bound. -/
theorem AtMost.roundAway {N : Nat} {d : Decimal} (h : AtMost N d) (places : Nat) :
    AtMost N (d.roundAway places) := by
  unfold Decimal.roundAway
  split_ifs with hle
  · exact h
  · refine ⟨by simp [h.1], ?_⟩
    apply divPow10HalfUp_le_of_le
    have hp := h.2
    rwa [pow_ten_split (Nat.le_of_lt (Nat.lt_of_not_le hle)), ← Nat.mul_assoc] at hp

/-- Rounding up to a whole number keeps a value at most a whole bound. -/
theorem AtMost.ceil {N : Nat} {d : Decimal} (h : AtMost N d) : AtMost N d.ceil := by
  unfold Decimal.ceil
  split_ifs with h0 hfrac
  · exact h
  · simp only [Bool.and_eq_true, Bool.not_eq_eq_eq_not, Bool.not_true, hasFraction,
      bne_iff_ne, ne_eq] at hfrac
    exact ⟨rfl, show d.mantissa / Nat.pow 10 d.scale + 1 ≤ N * 1 by
      rw [Nat.mul_one]
      exact roundedQuotient_le h.2 (.inr ⟨Nat.pos_of_ne_zero hfrac.2, rfl⟩)⟩
  · exact ⟨h.1, by simpa [trunc] using div_pow_ten_le h.2⟩

/-- A count read off a value at most a whole bound is at most the bound. -/
theorem AtMost.toCount?_le {N : Nat} {d : Decimal} (h : AtMost N d) {w : Nat}
    (hw : d.toCount? = some w) : w ≤ N := by
  unfold toCount? at hw
  rw [if_neg (by simp [h.1])] at hw
  dsimp only at hw
  split_ifs at hw
  cases hw
  exact div_pow_ten_le h.2

/-- Comparing with zero compares the signed mantissa with zero, whatever the scale. -/
theorem cmp_zero (d : Decimal) : d.cmp zero = compare d.signed 0 := by
  have hpow : ((Nat.pow 10 0 : Nat) : Int) = 1 := rfl
  simp only [cmp, zero, signed, Bool.false_eq_true, if_false, Int.natCast_zero, Int.zero_mul,
    hpow, Int.mul_one]

theorem zero_cmp (d : Decimal) : zero.cmp d = compare 0 d.signed := by
  have hpow : ((Nat.pow 10 0 : Nat) : Int) = 1 := rfl
  simp only [cmp, zero, signed, Bool.false_eq_true, if_false, Int.natCast_zero, Int.zero_mul,
    hpow, Int.mul_one]

/-- A value not below zero carries no sign, or is zero. -/
theorem nonneg_of_zero_le {d : Decimal} (h : zero ≤ d) : d.negative = false ∨ d.isZero := by
  change zero.cmp d ≠ .gt at h
  rw [zero_cmp, Int.compare_ne_gt] at h
  unfold isZero
  cases hneg : d.negative
  · exact .inl rfl
  · right
    simp only [signed, hneg, if_true] at h
    simp only [beq_iff_eq]
    omega

/-- A value greater than zero carries no sign. -/
theorem negative_eq_false_of_cmp_gt {d : Decimal} (h : d.cmp zero = .gt) : d.negative = false := by
  rw [cmp_zero, Int.compare_eq_gt] at h
  cases hneg : d.negative
  · rfl
  · simp only [signed, hneg, if_true] at h
    omega

/-- Dividing a value without sign by one without sign gives a value without sign. -/
theorem div?_negative {a b c : Decimal} (ha : a.negative = false ∨ a.isZero)
    (hb : b.negative = false) (h : div? a b = .ok c) : c.negative = false := by
  unfold div? at h
  split_ifs at h with hbz haz
  · cases h
    rfl
  · rw [ha.resolve_right haz, hb] at h
    dsimp only at h
    split at h
    · cases h
    · cases h
      simp

/-- One less a value without sign, when it carries no sign, is at most one. -/
theorem sub_one_atMost {part left : Decimal} (hpart : part.negative = false)
    (h : sub? one part = some left) (hleft : left.negative = false) : AtMost 1 left := by
  unfold sub? add? at h
  rw [if_neg (by decide), if_neg (by decide)] at h
  split_ifs at h with hz
  · cases h
    exact ⟨rfl, by decide⟩
  · -- the exact difference at the part's scale is a power of ten less the part's mantissa
    have hs : Nat.max one.scale part.neg.scale = part.scale := Nat.zero_max _
    have ht : one.atScale part.scale + part.neg.atScale part.scale =
        (Nat.pow 10 part.scale : Nat) - (part.mantissa : Int) := by
      simp [atScale, signed, one, neg, hpart]
      omega
    dsimp only at h
    rw [hs, ht] at h
    unfold ofExact at h
    obtain ⟨⟨m, k⟩, hfit, rfl⟩ := Option.map_eq_some_iff.1 h
    have hnn : (part.mantissa : Int) ≤ (Nat.pow 10 part.scale : Nat) := by
      by_contra hlt
      simp only at hleft
      rw [if_neg (by omega)] at hleft
      simp only [decide_eq_false_iff_not] at hleft
      omega
    refine ⟨hleft, fit_le hfit ?_⟩
    omega

/-- The factor left by a reduction of a percentage not below zero is at most one. -/
theorem reduction_atMost {pct f : Decimal} (hpct : pct.negative = false ∨ pct.isZero)
    (h : reduction pct = .ok f) : AtMost 1 f := by
  unfold reduction at h
  obtain ⟨part, hdiv, h⟩ := ok_of_bind h
  obtain ⟨left, hsub, h⟩ := ok_of_bind h
  cases h
  have hpart : part.negative = false := by
    unfold div at hdiv
    split at hdiv
    · cases hdiv
      exact div?_negative hpct rfl ‹_›
    · cases hdiv
    · cases hdiv
  have hleft : sub? one part = some left := by
    unfold sub at hsub
    split at hsub
    · cases hsub
      assumption
    · cases hsub
  show AtMost 1 (Decimal.max left zero)
  unfold Decimal.max
  split_ifs with hgt
  · exact sub_one_atMost hpart hleft (negative_eq_false_of_cmp_gt (by simpa using hgt))
  · exact AtMost.zero 1

end Decimal

/-- An adjusted quantity is at least one unit per run and at most the uncut quantity, for a
bonus not below zero. -/
theorem adjustedQuantity_le {base runs me : Nat} {bonus : Decimal}
    (hbonus : bonus.negative = false ∨ bonus.isZero) {q : Nat}
    (h : adjustedQuantity base runs me bonus = .ok q) :
    runs ≤ q ∧ q ≤ Nat.max runs (base * runs) := by
  unfold adjustedQuantity at h
  obtain ⟨f, hf, h⟩ := ok_of_bind h
  obtain ⟨g, hg, h⟩ := ok_of_bind h
  cases h
  have hfA := Decimal.reduction_atMost (.inl rfl) hf
  have hgA := Decimal.reduction_atMost hbonus hg
  refine ⟨Nat.le_max_right _ _, Nat.max_le.2 ⟨Nat.le_trans ?_ (Nat.le_max_right _ _),
    Nat.le_max_left _ _⟩⟩
  split
  · rename_i v hv
    obtain ⟨v₁, h₁, hv⟩ := Option.bind_eq_some_iff.1 hv
    obtain ⟨v₂, h₂, h₃⟩ := Option.bind_eq_some_iff.1 hv
    have hA : Decimal.AtMost (base * runs * 1 * 1) v :=
      (((Decimal.AtMost.ofNat base).mul? (Decimal.AtMost.ofNat runs) h₁).mul? hfA h₂).mul? hgA h₃
    cases hc : (v.roundAway 2).ceil.toCount? with
    | none => exact Nat.zero_le _
    | some w => simpa using (hA.roundAway 2).ceil.toCount?_le hc
  · exact Nat.min_le_left _ _


/-- Efficiency and a bonus not below zero leave every required quantity between the runs and
the uncut quantity, and it is always worked out. -/
theorem adjustedQuantity_bounded (base runs : Nat) {me : Nat} {bonus : Decimal}
    (hme : me < Decimal.mantissaBound) (hbonus : bonus.InRange) (hnonneg : Decimal.zero ≤ bonus) :
    (∃ q, adjustedQuantity base runs me bonus = .ok q ∧ runs ≤ q ∧
      q ≤ Nat.max runs (base * runs)) ∧
    ∀ a : Activity, ∃ q, requiredQuantity base runs a me bonus = .ok q ∧ runs ≤ q ∧
      q ≤ Nat.max runs (base * runs) := by
  have hsign := Decimal.nonneg_of_zero_le hnonneg
  refine ⟨?_, fun a => ?_⟩
  · obtain ⟨q, hq⟩ := adjustedQuantity_ok base runs hme hbonus
    exact ⟨q, hq, adjustedQuantity_le hsign hq⟩
  · obtain ⟨q, hq⟩ := requiredQuantity_ok base runs a hme hbonus
    exact ⟨q, hq, adjustedQuantity_le hsign hq⟩

/-- A bonus of 2.4 percent. -/
def bonusTwoPointFour : Decimal := ⟨false, 24, 1⟩

/-- A hundred units a run for one run, at 10 percent efficiency and a bonus of 2.4 percent. -/
theorem adjustedQuantity_bounded_hundred :
    10 < Decimal.mantissaBound ∧ bonusTwoPointFour.InRange ∧ Decimal.zero ≤ bonusTwoPointFour ∧
      adjustedQuantity 100 1 10 bonusTwoPointFour = .ok 88 ∧
      ((∃ q, adjustedQuantity 100 1 10 bonusTwoPointFour = .ok q ∧ 1 ≤ q ∧
        q ≤ Nat.max 1 (100 * 1)) ∧
      ∀ a : Activity, ∃ q, requiredQuantity 100 1 a 10 bonusTwoPointFour = .ok q ∧ 1 ≤ q ∧
        q ≤ Nat.max 1 (100 * 1)) := by
  have hme : 10 < Decimal.mantissaBound := by decide
  have hrange : bonusTwoPointFour.InRange := ⟨by decide, by decide⟩
  have hnonneg : Decimal.zero ≤ bonusTwoPointFour := by decide
  exact ⟨hme, hrange, hnonneg, by decide, adjustedQuantity_bounded 100 1 hme hrange hnonneg⟩

/-- Past the largest count the quantity falls back to one unit per run: one run more, or no
efficiency instead of half, gives two units where the neighbour gives the largest count. -/
theorem adjustedQuantity_drops_past_largest_count :
    adjustedQuantity Count.top 1 0 Decimal.zero = .ok Count.top ∧
      adjustedQuantity Count.top 2 0 Decimal.zero = .ok 2 ∧
      adjustedQuantity Count.top 2 50 Decimal.zero = .ok Count.top := by
  refine ⟨?_, ?_, ?_⟩ <;> decide

end Fabrication
