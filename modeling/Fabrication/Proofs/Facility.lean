import Mathlib
import Fabrication.Proofs.Outcome
import Fabrication.Facility

/-!
# The best bonus of a registry

A registry keeps one facility per id, in ascending order of id (`idsAscending_ofList`), and
its best bonus for a material and activity is a fold over the bonuses its facilities give: a
candidate replaces the best so far only when it is better.

Whether one bonus is better than another is a comparison of ranks
(`Bonus.isBetterThan_iff_rank_lt`). A bonus ranks by its material bonus, largest first, then
by its time bonus, largest first, then by its facility id, smallest first, a bonus without a
facility last; percentages are compared by the numbers they stand for (`Decimal.value`),
whatever their scale. So `isBetterThan` is a strict order, total between bonuses of different
facilities, and the fold is `List.argmin` of the ranks (`Registry.bestFor_eq`). The bonuses of
a registry come from different facilities, so the fold finds the one bonus better than all
others (`Registry.bestFor_eq_ok_some_iff`), and which one does not depend on the order in
which the facilities are visited (`Registry.bestFor_congr`) or were registered
(`Registry.ofList_eq_of_perm`).

Stacking the percentages of several rules can leave the decimal range. The lookup then fails
with that fault whatever the other facilities give (`Registry.bestFor_error_iff`,
`Registry.bestFor_overflows`).
-/

namespace Fabrication

namespace Decimal

/-- The number a decimal stands for. -/
def value (d : Decimal) : ℚ := d.signed / 10 ^ d.scale

/-- The products that `cmp` compares are the values brought to a common denominator. -/
theorem cast_cross (a b : Decimal) :
    ((a.signed * (Nat.pow 10 b.scale : ℕ) : ℤ) : ℚ) = a.value * (10 ^ a.scale * 10 ^ b.scale) := by
  rw [value, Nat.pow_eq]
  push_cast
  field_simp

theorem lt_iff_value_lt {a b : Decimal} : a < b ↔ a.value < b.value := by
  have hpos : (0 : ℚ) < 10 ^ a.scale * 10 ^ b.scale := by positivity
  change a.cmp b = .lt ↔ _
  rw [cmp, Int.compare_eq_lt, ← Int.cast_lt (R := ℚ), cast_cross, cast_cross,
    mul_comm ((10 : ℚ) ^ b.scale), mul_lt_mul_iff_of_pos_right hpos]

@[simp] theorem sameValue_iff {a b : Decimal} : a.sameValue b = true ↔ a.value = b.value := by
  have hpos : (0 : ℚ) < 10 ^ a.scale * 10 ^ b.scale := by positivity
  rw [sameValue, beq_iff_eq, cmp, Int.compare_eq_eq, ← Int.cast_inj (α := ℚ), cast_cross,
    cast_cross, mul_comm ((10 : ℚ) ^ b.scale), mul_left_inj' hpos.ne']

end Decimal

/-! ## Ranking bonuses -/

namespace Bonus

/-- Where its facility puts a bonus in the ranking: by id, smallest first, no facility last. -/
def facilityRank : Option Nat → WithTop ℕ
  | some x => x
  | Option.none => ⊤

theorem facilityRank_injective : Function.Injective facilityRank := by
  rintro (_ | x) (_ | y) h <;> simp_all [facilityRank]

/-- Where a bonus stands in the ranking of bonuses, first place least: by material bonus,
largest first, then by time bonus, largest first, then by facility. -/
def rank (b : Bonus) : ℚ ×ₗ ℚ ×ₗ WithTop ℕ :=
  toLex (-b.material.value, toLex (-b.time.value, facilityRank b.facility))

theorem isBetterThan_iff_rank_lt {a b : Bonus} : a.isBetterThan b = true ↔ a.rank < b.rank := by
  simp only [isBetterThan, rank, Prod.Lex.toLex_lt_toLex, neg_lt_neg_iff, neg_inj,
    Decimal.lt_iff_value_lt]
  by_cases hm : a.material.value = b.material.value
  · by_cases ht : a.time.value = b.time.value
    · rcases a with ⟨_, _, _ | x⟩ <;> rcases b with ⟨_, _, _ | y⟩ <;> simp_all [facilityRank]
    · simp [hm, ht]
  · simp [hm]

/-- No bonus is better than itself. -/
theorem isBetterThan_irrefl (a : Bonus) : a.isBetterThan a = false := by
  rw [← Bool.not_eq_true, isBetterThan_iff_rank_lt]
  exact lt_irrefl _

/-- Better than a bonus that is better than a third is better than the third. -/
theorem isBetterThan_trans {a b c : Bonus} (hab : a.isBetterThan b = true)
    (hbc : b.isBetterThan c = true) : a.isBetterThan c = true := by
  rw [isBetterThan_iff_rank_lt] at *
  exact hab.trans hbc

/-- Bonuses of the same rank name the same facility. -/
theorem facility_eq_of_rank_eq {a b : Bonus} (h : a.rank = b.rank) : a.facility = b.facility :=
  facilityRank_injective (congrArg (fun k => (ofLex (ofLex k).2).2) h)

/-- Of two bonuses of different facilities, one is better than the other. -/
theorem isBetterThan_total {a b : Bonus} (h : a.facility ≠ b.facility) :
    a.isBetterThan b = true ∨ b.isBetterThan a = true := by
  simp only [isBetterThan_iff_rank_lt]
  rcases lt_trichotomy a.rank b.rank with hlt | heq | hgt
  · exact .inl hlt
  · exact absurd (facility_eq_of_rank_eq heq) h
  · exact .inr hgt

/-- Among bonuses no two of which share a facility, the first of least rank is the one bonus
better than every other. -/
theorem argmin_rank_eq_some_iff {l : List Bonus}
    (hl : ∀ b ∈ l, ∀ c ∈ l, b.facility = c.facility → b = c) {b : Bonus} :
    l.argmin rank = some b ↔ b ∈ l ∧ ∀ c ∈ l, c ≠ b → b.isBetterThan c = true := by
  rw [List.argmin_eq_some_iff]
  constructor
  · rintro ⟨hb, hle, -⟩
    refine ⟨hb, fun c hc hne => isBetterThan_iff_rank_lt.2 (lt_of_le_of_ne (hle c hc) ?_)⟩
    intro heq
    exact hne (hl b hb c hc (facility_eq_of_rank_eq heq)).symm
  · rintro ⟨hb, hbest⟩
    refine ⟨hb, fun c hc => ?_, fun c hc hcb => ?_⟩
    · by_cases hne : c = b
      · rw [hne]
      · exact (isBetterThan_iff_rank_lt.1 (hbest c hc hne)).le
    · by_cases hne : c = b
      · rw [hne]
      · exact absurd hcb (not_le.2 (isBetterThan_iff_rank_lt.1 (hbest c hc hne)))

end Bonus

/-! ## The bonus of one facility -/

namespace Facility

variable {f : Facility} {m : Nat} {a : Activity}

theorem covers_eq_false_iff :
    f.covers m a = false ↔ (f.rules.filter (·.appliesTo m a)).isEmpty := by
  simp [covers, List.isEmpty_iff, List.filter_eq_nil_iff]

/-- What a successful bonus lookup gives: nothing when no rule covers the material and
activity, and otherwise a bonus that names the facility. -/
theorem bonusFor_ok {o : Option Bonus} (h : f.bonusFor m a = .ok o) :
    (o = Option.none ∧ f.covers m a = false) ∨
      (∃ b, o = some b ∧ b.facility = some f.id ∧ f.covers m a = true) := by
  unfold bonusFor at h
  by_cases hempty : (f.rules.filter (·.appliesTo m a)).isEmpty
  · simp only [hempty, if_true] at h
    cases h
    exact .inl ⟨rfl, covers_eq_false_iff.2 hempty⟩
  · simp only [hempty] at h
    obtain ⟨p, -, h⟩ := ok_of_bind h
    obtain ⟨mat, -, h⟩ := ok_of_bind h
    obtain ⟨time, -, h⟩ := ok_of_bind h
    cases h
    exact .inr ⟨_, rfl, rfl, by simpa using mt covers_eq_false_iff.1 hempty⟩

/-- A facility gives no bonus exactly when none of its rules covers the material and
activity, and then it does not fail. -/
theorem bonusFor_eq_none_iff : f.bonusFor m a = .ok Option.none ↔ f.covers m a = false := by
  constructor
  · intro h
    rcases bonusFor_ok h with ⟨-, hcov⟩ | ⟨b, hb, -⟩
    · exact hcov
    · cases hb
  · intro hcov
    unfold bonusFor
    simp only [covers_eq_false_iff.1 hcov, if_true]
    rfl

/-- A bonus that a facility gives names the facility. -/
theorem facility_of_bonusFor {b : Bonus} (h : f.bonusFor m a = .ok (some b)) :
    b.facility = some f.id := by
  rcases bonusFor_ok h with ⟨hb, -⟩ | ⟨c, hc, hfac, -⟩
  · cases hb
  · cases hc
    exact hfac

end Facility

/-! ## The best bonus of a registry -/

namespace Registry

variable {m : Nat} {a : Activity}

/-- `keepBetter` is the step of `List.argmin` over ranks: a candidate replaces the best so far
only when it ranks before it. -/
theorem keepBetter_eq_argAux (best : Option Bonus) (c : Bonus) :
    keepBetter best c = List.argAux (fun b c => b.rank < c.rank) best c := by
  cases best with
  | none => rfl
  | some current => simp [keepBetter, List.argAux, Bonus.isBetterThan_iff_rank_lt]

theorem foldl_keepBetter (bonuses : List (Option Bonus)) (best : Option Bonus) :
    bonuses.foldl (fun best b? => match b? with
      | some b => keepBetter best b
      | Option.none => best) best =
      bonuses.reduceOption.foldl (List.argAux fun b c => b.rank < c.rank) best := by
  induction bonuses generalizing best with
  | nil => rfl
  | cons b? bs ih =>
    cases b? with
    | none => exact ih best
    | some b =>
      rw [List.foldl_cons, ih, List.reduceOption_cons_of_some, List.foldl_cons]
      exact congrArg (fun x => List.foldl _ x _) (keepBetter_eq_argAux best b)

/-- The best bonus of a registry is the first bonus of least rank among those that its
facilities give. -/
theorem bestFor_eq (r : Registry) :
    r.bestFor m a = r.facilities.mapM (·.bonusFor m a) >>= fun bonuses =>
      pure (bonuses.reduceOption.argmin Bonus.rank) := by
  unfold bestFor
  congr
  funext bonuses
  exact congrArg pure (foldl_keepBetter bonuses Option.none)

/-- A lookup of the best bonus answers when every facility's lookup does. -/
theorem bestFor_eq_ok_iff (r : Registry) (o : Option Bonus) :
    r.bestFor m a = .ok o ↔ ∃ bonuses, r.facilities.mapM (·.bonusFor m a) = .ok bonuses ∧
      bonuses.reduceOption.argmin Bonus.rank = o := by
  rw [bestFor_eq]
  cases r.facilities.mapM (·.bonusFor m a) with
  | error e => simp [bind, Except.bind]
  | ok bonuses => simp [bind, Except.bind, pure, Except.pure]

/-- A lookup of the best bonus answers exactly when every facility's lookup does. -/
theorem exists_bestFor_ok_iff (r : Registry) :
    (∃ o, r.bestFor m a = .ok o) ↔ ∀ f ∈ r.facilities, ∃ o, f.bonusFor m a = .ok o := by
  rw [← exists_mapM_ok_iff]
  simp only [bestFor_eq_ok_iff]
  constructor
  · rintro ⟨o, bonuses, hbs, -⟩
    exact ⟨bonuses, hbs⟩
  · rintro ⟨bonuses, hbs⟩
    exact ⟨_, bonuses, hbs, rfl⟩

/-- A lookup of the best bonus fails exactly when some facility's lookup fails. -/
theorem bestFor_error_iff (r : Registry) :
    (∃ e, r.bestFor m a = .error e) ↔ ∃ f ∈ r.facilities, ∃ e, f.bonusFor m a = .error e := by
  rw [exists_error_iff_not_ok, exists_bestFor_ok_iff]
  simp only [not_forall, exists_error_iff_not_ok, exists_prop]

/-- A facility of the registry gives this bonus for the material and activity. -/
def Offers (r : Registry) (m : Nat) (a : Activity) (b : Bonus) : Prop :=
  ∃ f ∈ r.facilities, f.bonusFor m a = .ok (some b)

/-- The facilities of a registry have distinct ids. -/
def DistinctIds (r : Registry) : Prop := (r.facilities.map (·.id)).Nodup

/-- Once every facility's lookup has succeeded, the bonuses found are those the registry
offers. -/
theorem offers_iff_mem {r : Registry} {bonuses : List (Option Bonus)}
    (h : r.facilities.mapM (·.bonusFor m a) = .ok bonuses) {b : Bonus} :
    r.Offers m a b ↔ b ∈ bonuses.reduceOption := by
  have hrel := mapM_ok_iff_forall₂.1 h
  rw [List.reduceOption_mem_iff]
  constructor
  · rintro ⟨f, hf, hfb⟩
    obtain ⟨o, ho, hfo⟩ := exists_of_forall₂ hrel hf
    rw [hfb] at hfo
    cases hfo
    exact ho
  · intro hb
    obtain ⟨f, hf, hfb⟩ := exists_of_forall₂_right hrel hb
    exact ⟨f, hf, hfb⟩

/-- In a registry with distinct ids, two offered bonuses that name the same facility are the
same bonus. -/
theorem Offers.eq_of_facility_eq {r : Registry} (hr : r.DistinctIds) {b c : Bonus}
    (hb : r.Offers m a b) (hc : r.Offers m a c) (h : b.facility = c.facility) : b = c := by
  obtain ⟨f, hf, hfb⟩ := hb
  obtain ⟨g, hg, hgc⟩ := hc
  have hid : f.id = g.id := by
    rw [Facility.facility_of_bonusFor hfb, Facility.facility_of_bonusFor hgc] at h
    exact Option.some.inj h
  obtain rfl := List.inj_on_of_nodup_map hr hf hg hid
  rw [hfb] at hgc
  cases hgc
  rfl

/-- The bonuses found in a registry with distinct ids name different facilities. -/
theorem facility_injective_of_mapM {r : Registry} (hr : r.DistinctIds)
    {bonuses : List (Option Bonus)} (h : r.facilities.mapM (·.bonusFor m a) = .ok bonuses) :
    ∀ b ∈ bonuses.reduceOption, ∀ c ∈ bonuses.reduceOption, b.facility = c.facility → b = c :=
  fun _ hb _ hc => ((offers_iff_mem h).2 hb).eq_of_facility_eq hr ((offers_iff_mem h).2 hc)

/-- No bonus is best exactly when no facility covers the material and activity. -/
theorem bestFor_eq_ok_none_iff (r : Registry) :
    r.bestFor m a = .ok Option.none ↔ ∀ f ∈ r.facilities, f.covers m a = false := by
  rw [bestFor_eq_ok_iff]
  constructor
  · rintro ⟨bonuses, hbs, hnone⟩ f hf
    rw [List.argmin_eq_none] at hnone
    obtain ⟨o, -, hfo⟩ := exists_of_forall₂ (mapM_ok_iff_forall₂.1 hbs) hf
    cases o with
    | none => exact Facility.bonusFor_eq_none_iff.1 hfo
    | some b =>
      have hmem := (offers_iff_mem hbs).1 ⟨f, hf, hfo⟩
      rw [hnone] at hmem
      cases hmem
  · intro hcov
    obtain ⟨bonuses, hbs⟩ := exists_mapM_ok_iff.2 fun f hf =>
      ⟨_, Facility.bonusFor_eq_none_iff.2 (hcov f hf)⟩
    refine ⟨bonuses, hbs, List.argmin_eq_none.2 (List.eq_nil_iff_forall_not_mem.2 ?_)⟩
    rintro b hb
    obtain ⟨f, hf, hfb⟩ := (offers_iff_mem hbs).2 hb
    rw [Facility.bonusFor_eq_none_iff.2 (hcov f hf)] at hfb
    cases hfb

/-- The best bonus of a registry with distinct ids is `b` exactly when every facility's lookup
succeeds, some facility gives `b`, and `b` is better than every other bonus given. -/
theorem bestFor_eq_ok_some_iff {r : Registry} (hr : r.DistinctIds) (b : Bonus) :
    r.bestFor m a = .ok (some b) ↔ (∀ f ∈ r.facilities, ∃ o, f.bonusFor m a = .ok o) ∧
      r.Offers m a b ∧ ∀ c, r.Offers m a c → c ≠ b → b.isBetterThan c = true := by
  constructor
  · intro h
    obtain ⟨bonuses, hbs, hmin⟩ := (bestFor_eq_ok_iff r _).1 h
    obtain ⟨hb, hbest⟩ :=
      (Bonus.argmin_rank_eq_some_iff (facility_injective_of_mapM hr hbs)).1 hmin
    refine ⟨(exists_bestFor_ok_iff r).1 ⟨_, h⟩, (offers_iff_mem hbs).2 hb, fun c hc hne => ?_⟩
    exact hbest c ((offers_iff_mem hbs).1 hc) hne
  · rintro ⟨hok, hb, hbest⟩
    obtain ⟨bonuses, hbs⟩ := exists_mapM_ok_iff.2 hok
    refine (bestFor_eq_ok_iff r _).2 ⟨bonuses, hbs,
      (Bonus.argmin_rank_eq_some_iff (facility_injective_of_mapM hr hbs)).2 ?_⟩
    exact ⟨(offers_iff_mem hbs).1 hb, fun c hc hne => hbest c ((offers_iff_mem hbs).2 hc) hne⟩

/-- Registries with distinct ids and the same facilities, in whatever order, give the same
best bonus, and one fails exactly when the other does. -/
theorem bestFor_congr {r r' : Registry} (hr : r.DistinctIds) (hr' : r'.DistinctIds)
    (hmem : ∀ f, f ∈ r.facilities ↔ f ∈ r'.facilities) (o : Option Bonus) :
    r.bestFor m a = .ok o ↔ r'.bestFor m a = .ok o := by
  have hoffers : ∀ b, r.Offers m a b ↔ r'.Offers m a b := fun b => by simp only [Offers, hmem]
  cases o with
  | none => simp only [bestFor_eq_ok_none_iff, hmem]
  | some b => simp only [bestFor_eq_ok_some_iff hr, bestFor_eq_ok_some_iff hr', hoffers, hmem]

/-! ## Registration -/

/-- Facility ids ascend through a registry. -/
def IdsAscending (r : Registry) : Prop := r.facilities.Pairwise (fun f g => f.id < g.id)

theorem IdsAscending.distinctIds {r : Registry} (h : r.IdsAscending) : r.DistinctIds :=
  (List.pairwise_map.2 h).imp Nat.ne_of_lt

theorem mem_insert_go {f g : Facility} {gs : List Facility} (h : g ∈ insert.go f gs) :
    g = f ∨ g ∈ gs := by
  induction gs with
  | nil => simpa [insert.go] using h
  | cons x gs ih =>
    unfold insert.go at h
    split_ifs at h <;> simp only [List.mem_cons] at h ⊢
    · tauto
    · tauto
    · rcases h with rfl | h
      · exact .inr (.inl rfl)
      · rcases ih h with rfl | h
        · exact .inl rfl
        · exact .inr (.inr h)

/-- Putting a facility in keeps the ids ascending. -/
theorem IdsAscending.insert {r : Registry} (h : r.IdsAscending) (f : Facility) :
    (r.insert f).IdsAscending := by
  obtain ⟨gs⟩ := r
  show (insert.go f gs).Pairwise _
  induction gs with
  | nil => simp [insert.go]
  | cons g gs ih =>
    have h := List.pairwise_cons.1 h
    unfold insert.go
    split_ifs with heq hlt
    · exact List.pairwise_cons.2 ⟨fun x hx => heq ▸ h.1 x hx, h.2⟩
    · exact List.pairwise_cons.2
        ⟨fun x hx => (List.mem_cons.1 hx).elim (· ▸ hlt) fun hx => hlt.trans (h.1 x hx),
          List.pairwise_cons.2 h⟩
    · refine List.pairwise_cons.2 ⟨fun x hx => ?_, ih h.2⟩
      rcases mem_insert_go hx with rfl | hx
      · omega
      · exact h.1 x hx

/-- Every registry built by registering facilities has its ids ascending. -/
theorem idsAscending_ofList (fs : List Facility) : (ofList fs).IdsAscending :=
  foldl_invariant IdsAscending List.Pairwise.nil fun _ f _ hr => hr.insert f

/-- Putting in a facility with a new id adds it to the facilities. -/
theorem insert_perm {r : Registry} {f : Facility} (h : f.id ∉ r.facilities.map (·.id)) :
    (r.insert f).facilities.Perm (f :: r.facilities) := by
  obtain ⟨gs⟩ := r
  show (insert.go f gs).Perm _
  induction gs with
  | nil => simp [insert.go]
  | cons g gs ih =>
    simp only [List.map_cons, List.mem_cons, not_or] at h
    unfold insert.go
    rw [if_neg (Ne.symm h.1)]
    split_ifs
    · rfl
    · exact ((ih h.2).cons g).trans (List.Perm.swap f g gs)

theorem foldl_insert_perm (fs : List Facility) (r : Registry)
    (h : ((r.facilities ++ fs).map (·.id)).Nodup) :
    (fs.foldl insert r).facilities.Perm (r.facilities ++ fs) := by
  induction fs generalizing r with
  | nil => simp
  | cons f fs ih =>
    have hnd : ((f :: (r.facilities ++ fs)).map (·.id)).Nodup :=
      (List.perm_middle.map _).nodup_iff.1 h
    have hf : f.id ∉ r.facilities.map (·.id) := by
      rw [List.map_cons, List.nodup_cons, List.map_append, List.mem_append, not_or] at hnd
      exact hnd.1.1
    have hperm := (insert_perm hf).append_right fs
    rw [List.foldl_cons]
    exact (ih _ ((hperm.map _).nodup_iff.2 hnd)).trans (hperm.trans List.perm_middle.symm)

/-- Registering facilities with distinct ids keeps all of them. -/
theorem ofList_perm {fs : List Facility} (h : (fs.map (·.id)).Nodup) :
    (ofList fs).facilities.Perm fs := by
  simpa [ofList] using foldl_insert_perm fs {} (by simpa using h)

/-- Facilities with distinct ids make the same registry in whatever order they are
registered. -/
theorem ofList_eq_of_perm {fs gs : List Facility} (hperm : gs.Perm fs)
    (h : (fs.map (·.id)).Nodup) : ofList gs = ofList fs := by
  have hg : (gs.map (·.id)).Nodup := (hperm.map _).nodup_iff.2 h
  have heq : (ofList gs).facilities = (ofList fs).facilities :=
    List.Perm.eq_of_pairwise (fun f g _ _ hfg hgf => absurd (hfg.trans hgf) (lt_irrefl _))
      (idsAscending_ofList gs) (idsAscending_ofList fs)
      ((ofList_perm hg).trans (hperm.trans (ofList_perm h).symm))
  show (⟨(ofList gs).facilities⟩ : Registry) = ⟨(ofList fs).facilities⟩
  rw [heq]

/-! ## The best bonus, whole -/

/-- The best bonus of a registry. `isBetterThan` is a strict order, total between bonuses of
different facilities. For facilities registered in any order, the lookup fails exactly when
some facility's stacked bonus does; it finds no bonus exactly when no facility covers the
material and activity; and otherwise it finds the one bonus that a facility gives and that is
better than every other bonus given. Registering the same facilities with distinct ids in
another order builds the same registry, and visiting its facilities in another order gives
the same answer. -/
theorem bestFor_unique_best :
    (∀ b : Bonus, b.isBetterThan b = false) ∧
    (∀ b c d : Bonus, b.isBetterThan c = true → c.isBetterThan d = true →
      b.isBetterThan d = true) ∧
    (∀ b c : Bonus, b.facility ≠ c.facility →
      b.isBetterThan c = true ∨ c.isBetterThan b = true) ∧
    ∀ (fs : List Facility) (m : Nat) (a : Activity), let r := ofList fs
      ((∃ e, r.bestFor m a = .error e) ↔ ∃ f ∈ r.facilities, ∃ e, f.bonusFor m a = .error e) ∧
      (r.bestFor m a = .ok Option.none ↔ ∀ f ∈ r.facilities, f.covers m a = false) ∧
      (∀ b, r.bestFor m a = .ok (some b) ↔
        (∀ f ∈ r.facilities, ∃ o, f.bonusFor m a = .ok o) ∧ r.Offers m a b ∧
          ∀ c, r.Offers m a c → c ≠ b → b.isBetterThan c = true) ∧
      (∀ gs : List Facility, gs.Perm fs → (fs.map (·.id)).Nodup → ofList gs = r) ∧
      (∀ l : List Facility, l.Perm r.facilities → ∀ o,
        (⟨l⟩ : Registry).bestFor m a = .ok o ↔ r.bestFor m a = .ok o) := by
  refine ⟨Bonus.isBetterThan_irrefl, fun _ _ _ => Bonus.isBetterThan_trans,
    fun _ _ => Bonus.isBetterThan_total, fun fs m a => ?_⟩
  have hr := (idsAscending_ofList fs).distinctIds
  refine ⟨bestFor_error_iff _, bestFor_eq_ok_none_iff _, bestFor_eq_ok_some_iff hr,
    fun gs hperm hnd => ofList_eq_of_perm hperm hnd, fun l hl o => ?_⟩
  exact bestFor_congr ((hl.map _).nodup_iff.2 hr) hr (fun f => hl.mem_iff) o

/-- A loss of `7e28` percent. -/
def steepLoss : FacilityRule := ⟨.build, Option.none, ⟨true, 70000000000000000000000000000, 0⟩, 0⟩

/-- A facility that stacks the loss twice: its factor `(1 + 7e26)^2` leaves the decimal
range. -/
def stackedLoss : Facility := ⟨1, "", [steepLoss, steepLoss]⟩

/-- A facility with a plain bonus of three percent. -/
def threePercent : Facility := ⟨2, "", [⟨.build, Option.none, 3, 0⟩]⟩

/-- The best bonus is not always found when a facility covers the material: here the
facility with three percent is better than any loss, yet the lookup fails on the other
facility's overflow. -/
theorem bestFor_overflows :
    threePercent.bonusFor 500 .build = .ok (some ⟨3, 0, some 2⟩) ∧
      (ofList [stackedLoss, threePercent]).bestFor 500 .build = .error .decimalMulOverflow := by
  decide

end Registry

end Fabrication
