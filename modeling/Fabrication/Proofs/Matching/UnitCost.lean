import Fabrication.Proofs.Quantity.Bounds
import Fabrication.Proofs.Table
import Fabrication.Matching.Profit

/-!
# Where profit matching divides by zero

Pairing a product's delivered jobs with its sales divides in three places: a job's unit cost by
its units, a job's cost by its units when units are allocated, and a margin by a revenue above
zero. Jobs without units are dropped before they are paired, so only the first division can
meet a zero. It does when a job makes no units while its recipe is known with every input
priced: the unit cost is worked out for every job before the jobs without units are dropped
(`matchMaterial_divisionByZero`). Without a recipe or with an input unpriced, the product's
price stands in and nothing is divided.

`SafeDivision` says that a computation does not break down by dividing by zero; its simp lemmas
carry it through binds and past every decimal operation but division.
-/

namespace Fabrication

/-- A mapped computation that fails failed before the map. -/
theorem error_of_map {ε α β : Type} {f : α → β} {x : Except ε α} {e : ε}
    (h : x.map f = .error e) : x = .error e := by
  cases x with
  | error e' => cases h; rfl
  | ok a => cases h

namespace Decimal

/-! ## Long division fails only by overflow -/

theorem shedOverflow_error {v : Nat} {s : Int} {sticky : Bool} {e : DivisionFault}
    (h : shedOverflow v s sticky = .error e) : e = .overflow := by
  unfold shedOverflow at h
  split_ifs at h
  cases h
  rfl

theorem roundQuotient_error {q r b : Nat} {s : Int} {e : DivisionFault}
    (h : roundQuotient q r b s = .error e) : e = .overflow := by
  unfold roundQuotient at h
  split_ifs at h
  exact shedOverflow_error h

/-- Long division never reports a zero divisor: every way it fails is an overflow. -/
theorem divSteps_error {b : Nat} (fuel : Nat) : ∀ {q r : Nat} {s : Int} {had : Bool} {e : DivisionFault},
    divSteps b q r s had fuel = .error e → e = .overflow := by
  induction fuel with
  | zero => intro q r s had e h; cases h; rfl
  | succ fuel ih =>
    intro q r s had e h
    rw [divSteps] at h
    dsimp only at h
    -- every way out of a round is an overflow, a rounding that sheds a digit, or the next round
    split_ifs at h
    · cases h
      rfl
    · exact shedOverflow_error (error_of_map h)
    · exact ih h
    · exact roundQuotient_error (error_of_map h)
    · split at h
      · cases h
        rfl
      · exact roundQuotient_error (error_of_map h)
      · split_ifs at h
        · cases h
          rfl
        · exact shedOverflow_error (error_of_map h)
        · exact ih h

/-- A division by zero comes only from a zero divisor. -/
theorem div_divisionByZero {a b : Decimal} (h : div a b = .error .divisionByZero) :
    b.isZero = true := by
  unfold div at h
  split at h
  · cases h
  · rename_i hdiv
    unfold div? at hdiv
    split_ifs at hdiv with hb ha
    · exact hb
    · dsimp only at hdiv
      split at hdiv
      · rename_i e hsteps
        cases hdiv
        exact absurd (divSteps_error 60 hsteps) (by decide)
      · cases hdiv
  · cases h

end Decimal

/-- A computation that does not break down by dividing by zero. -/
def SafeDivision {α : Type} (x : Except Fault α) : Prop := x ≠ .error .divisionByZero

section SafeDivision

variable {α β : Type}

@[simp] theorem safeDivision_ok (a : α) : SafeDivision (.ok a : Except Fault α) := by
  simp [SafeDivision]

@[simp] theorem safeDivision_pure (a : α) : SafeDivision (pure a : Except Fault α) :=
  safeDivision_ok a

@[simp] theorem safeDivision_bind {x : Except Fault α} {f : α → Except Fault β} :
    SafeDivision (x >>= f) ↔ SafeDivision x ∧ ∀ a, x = .ok a → SafeDivision (f a) := by
  cases x with
  | error e =>
    have hfail : (Except.error e >>= f) = .error e := rfl
    simp [SafeDivision, hfail]
  | ok a =>
    have hgo : (Except.ok a >>= f) = f a := rfl
    simp [hgo]

@[simp] theorem safeDivision_map {f : α → β} {x : Except Fault α} :
    SafeDivision (f <$> x) ↔ SafeDivision x := by
  cases x with
  | error e =>
    have hfail : (f <$> Except.error e : Except Fault β) = .error e := rfl
    simp [SafeDivision, hfail]
  | ok a =>
    have hgo : (f <$> Except.ok a : Except Fault β) = .ok (f a) := rfl
    simp [hgo]

@[simp] theorem Decimal.safeDivision_mul (a b : Decimal) : SafeDivision (Decimal.mul a b) := by
  unfold SafeDivision Decimal.mul
  split <;> simp

@[simp] theorem Decimal.safeDivision_add (a b : Decimal) : SafeDivision (Decimal.add a b) := by
  unfold SafeDivision Decimal.add
  split <;> simp

@[simp] theorem Decimal.safeDivision_sub (a b : Decimal) : SafeDivision (Decimal.sub a b) := by
  unfold SafeDivision Decimal.sub
  split <;> simp

@[simp] theorem Count.safeDivision_add? (a b : Nat) : SafeDivision (Count.add? a b) := by
  unfold SafeDivision Count.add? Count.check
  split <;> simp

/-- Dividing by a nonzero decimal does not divide by zero. -/
theorem Decimal.safeDivision_div {a b : Decimal} (hb : b.isZero = false) :
    SafeDivision (Decimal.div a b) := fun h => by
  rw [Decimal.div_divisionByZero h] at hb
  cases hb

@[simp] theorem Decimal.safeDivision_div_ofNat (a : Decimal) {n : Nat} (hn : n ≠ 0) :
    SafeDivision (Decimal.div a (Decimal.ofNat n)) :=
  Decimal.safeDivision_div (by simpa [Decimal.ofNat, Decimal.isZero] using hn)

theorem safeDivision_foldlM {f : β → α → Except Fault β} (hf : ∀ b a, SafeDivision (f b a)) :
    ∀ (l : List α) (b : β), SafeDivision (l.foldlM f b)
  | [], b => by simp
  | a :: l, b => by
    rw [List.foldlM_cons, safeDivision_bind]
    exact ⟨hf b a, fun c _ => safeDivision_foldlM hf l c⟩

end SafeDivision

theorem error_of_mapM {α β ε : Type} {f : α → Except ε β} {e : ε} :
    ∀ {l : List α}, l.mapM f = .error e → ∃ x ∈ l, f x = .error e
  | [], h => by cases h
  | x :: l, h => by
    rw [List.mapM_cons] at h
    rcases error_of_bind h with h | ⟨y, -, h⟩
    · exact ⟨x, List.mem_cons_self, h⟩
    · rcases error_of_bind h with h | ⟨ys, -, h⟩
      · obtain ⟨z, hz, hzerr⟩ := error_of_mapM h
        exact ⟨z, List.mem_cons_of_mem _ hz, hzerr⟩
      · cases h

/-! ## Where profit matching divides -/

/-- Adding up the cost of a recipe's inputs never divides. -/
theorem safeDivision_inputsCost (prices : Nat → Option Decimal) (runs : Nat) :
    ∀ (ps : List Portion) (sum : Decimal), SafeDivision (inputsCost prices runs ps sum)
  | [], sum => by simp [inputsCost]
  | p :: ps, sum => by
    unfold inputsCost
    split
    · simp
    · simp [safeDivision_inputsCost prices runs ps]

/-- A cost worked out from a recipe's inputs had a price for every input. -/
theorem inputsCost_priced {prices : Nat → Option Decimal} {runs : Nat} :
    ∀ {ps : List Portion} {sum t : Decimal}, inputsCost prices runs ps sum = .ok (some t) →
      ∀ x ∈ ps, (prices x.material).isSome
  | [], _, _, _ => by simp
  | p :: ps, sum, t, h => by
    unfold inputsCost at h
    split at h
    · cases h
    · rename_i price hprice
      obtain ⟨x, -, h⟩ := ok_of_bind h
      obtain ⟨y, -, h⟩ := ok_of_bind h
      obtain ⟨s, -, h⟩ := ok_of_bind h
      intro x hx
      rcases List.mem_cons.1 hx with rfl | hx
      · simp [hprice]
      · exact inputsCost_priced h x hx

/-- A unit cost divides by zero only when the job makes no units and its recipe is known with
every input priced: without a recipe or with an input unpriced, the cost falls back to the
product's price and is never divided. -/
theorem unitCost_divisionByZero {config : EngineConfig} {prices : Nat → Option Decimal}
    {job : Job} {recipe : Option Recipe} {units : Nat}
    (h : unitCost config prices job recipe units = .error .divisionByZero) :
    units = 0 ∧ ∃ r, recipe = some r ∧ ∀ x ∈ r.inputs, (prices x.material).isSome := by
  unfold unitCost at h
  dsimp only at h
  split at h
  · rename_i r
    rcases error_of_bind h with h | ⟨total, htotal, h⟩
    · exact absurd h (safeDivision_inputsCost _ _ _ _)
    · split at h
      · rcases error_of_bind h with h | ⟨c, -, h⟩
        · have hz := Decimal.div_divisionByZero h
          exact ⟨by simpa [Decimal.ofNat, Decimal.isZero] using hz, r, rfl, inputsCost_priced htotal⟩
        · cases h
      · split at h
        · rcases error_of_bind h with h | ⟨c, -, h⟩
          · exact absurd h (Decimal.safeDivision_mul _ _)
          · cases h
        · cases h
  · simp only [pure_bind] at h
    split at h
    · rcases error_of_bind h with h | ⟨c, -, h⟩
      · exact absurd h (Decimal.safeDivision_mul _ _)
      · cases h
    · cases h

/-- A job's lot divides by zero only when the job makes no units and its recipe is known with
every input priced. -/
theorem lotOf_divisionByZero {config : EngineConfig} {prices : Nat → Option Decimal}
    {book : RecipeBook} {job : Job} (h : lotOf config prices book job = .error .divisionByZero) :
    ∃ r, book.get? ⟨job.recipe, job.activity⟩ = some r ∧
      job.runs * (r.outputPerRun job.product).getD 1 = 0 ∧ ∀ x ∈ r.inputs, (prices x.material).isSome := by
  unfold lotOf at h
  rcases error_of_bind h with h | ⟨_, -, h⟩
  · obtain ⟨hunits, r, hr, hpriced⟩ := unitCost_divisionByZero h
    refine ⟨r, hr, ?_, hpriced⟩
    rw [hr] at hunits
    have htop : 0 < Count.top := by decide
    simp only [Option.bind_some, Count.satMul, Nat.min_def] at hunits
    split at hunits <;> omega
  · cases h

/-- Allocating from a lot with units never divides by zero. -/
theorem safeDivision_allocate (config : EngineConfig) {lot : Lot} (sale : Sale) (q : Nat)
    (hunits : lot.units ≠ 0) : SafeDivision (allocate config lot sale q) := by
  unfold allocate
  simp [hunits]

/-- A lot keeps its units while its units left run down, so the lots after a pairing round all
have units when those before it did. -/
theorem units_ne_zero_of_cons {lot : Lot} {lots : List Lot} (q : Nat)
    (h : ∀ l ∈ lot :: lots, l.units ≠ 0) :
    (∀ l ∈ lots, l.units ≠ 0) ∧ ∀ l ∈ { lot with left := lot.left - q } :: lots, l.units ≠ 0 := by
  have hrest : ∀ l ∈ lots, l.units ≠ 0 := fun l hl => h l (List.mem_cons_of_mem _ hl)
  refine ⟨hrest, fun l hl => ?_⟩
  rcases List.mem_cons.1 hl with rfl | hl
  · exact h lot List.mem_cons_self
  · exact hrest l hl

/-- Pairing lots that all have units with sales never divides by zero. -/
theorem safeDivision_pairUp (config : EngineConfig) (lots : List Lot) (sales : List (Sale × Nat))
    (hunits : ∀ l ∈ lots, l.units ≠ 0) : SafeDivision (pairUp config lots sales) := by
  fun_induction pairUp config lots sales with
  | case1 => simp
  | case2 => simp
  | case3 lot lots sale left sales q jp hq ih₃ =>
    rename_i ih₂ ih₁
    obtain ⟨hrest, hkept⟩ := units_ne_zero_of_cons q hunits
    simp only [jp, safeDivision_bind, pure_bind]
    refine ⟨safeDivision_allocate config sale q (hunits lot List.mem_cons_self), fun here _ => ?_⟩
    split
    · split
      · simp [ih₃ hrest]
      · simp [ih₂ hrest]
    · simp [ih₁ hkept]
  | case4 lot lots sale left sales q jp hq ih₃ =>
    rename_i ih₂ ih₁
    obtain ⟨hrest, hkept⟩ := units_ne_zero_of_cons q hunits
    simp only [jp, pure_bind]
    split
    · split
      · simp [ih₃ hrest]
      · simp [ih₂ hrest]
    · simp [ih₁ hkept]

/-- A revenue above zero is not zero. -/
theorem Decimal.isZero_eq_false_of_pos {d : Decimal} (h : Decimal.zero < d) : d.isZero = false := by
  change Decimal.zero.cmp d = .lt at h
  rw [Decimal.zero_cmp, Int.compare_eq_lt] at h
  unfold Decimal.signed at h
  unfold Decimal.isZero
  split at h <;> simp <;> omega

/-- Summing up a product's allocations divides only by a revenue above zero. -/
theorem safeDivision_summarize (material : Nat) (allocations : List ProfitMatch) :
    SafeDivision (summarize material allocations) := by
  unfold summarize
  rw [safeDivision_bind]
  refine ⟨safeDivision_foldlM (fun s m => by simp) _ _, fun s _ => ?_⟩
  split
  · rename_i hpos
    simp [Decimal.safeDivision_div (Decimal.isZero_eq_false_of_pos hpos)]
  · simp

/-- The only division by zero in pairing a product's jobs with its sales is the unit cost of a
delivered job that makes no units, whose recipe is known with every input priced. Such jobs are
dropped from the pairing only after their unit cost is worked out. -/
theorem matchMaterial_divisionByZero {config : EngineConfig} {prices : Nat → Option Decimal}
    {book : RecipeBook} {material : Nat} {jobs : List Job} {sales : List Sale}
    {report : ProfitReport}
    (h : matchMaterial config prices book material jobs sales report = .error .divisionByZero) :
    ∃ j ∈ jobs, ∃ r, book.get? ⟨j.recipe, j.activity⟩ = some r ∧
      j.runs * (r.outputPerRun j.product).getD 1 = 0 ∧
      ∀ x ∈ r.inputs, (prices x.material).isSome := by
  unfold matchMaterial at h
  rcases error_of_bind h with h | ⟨lots, -, h⟩
  · obtain ⟨j, hj, hjerr⟩ := error_of_mapM h
    exact ⟨j, (mem_sortBy _).1 hj, lotOf_divisionByZero hjerr⟩
  · exfalso
    rcases error_of_bind h with h | ⟨_, -, h⟩
    · refine safeDivision_pairUp config _ _ (fun l hl => ?_) h
      have hpos := (List.mem_filter.1 hl).2
      simp only [gt_iff_lt, decide_eq_true_eq] at hpos
      omega
    · rcases error_of_bind h with h | ⟨_, -, h⟩
      · exact safeDivision_summarize _ _ h
      · cases h

/-- One unit of 500 a run from a hundred units of 34. -/
def idleBook : RecipeBook := ⟨[
  { id := 1, activity := .build, inputs := [⟨34, 100⟩], outputs := [⟨500, 1⟩], baseDuration := 0 }]⟩

/-- A delivered job of that recipe that ran no runs. -/
def idleJob : Job := { id := 1, recipe := 1, product := 500, status := .delivered, ended := some 150 }

/-- A price of five for 34 and none for anything else. -/
def priceOfInput (m : Nat) : Option Decimal := if m = 34 then some (Decimal.ofNat 5) else none

/-- A delivered job with no runs, whose one input is priced, divides its cost by zero units. -/
theorem matchMaterial_divisionByZero_idleJob :
    matchMaterial {} priceOfInput idleBook 500 [idleJob] [] { window := ⟨100, 200⟩ } =
        .error .divisionByZero ∧
      ∃ j ∈ [idleJob], ∃ r, idleBook.get? ⟨j.recipe, j.activity⟩ = some r ∧
        j.runs * (r.outputPerRun j.product).getD 1 = 0 ∧
        ∀ x ∈ r.inputs, (priceOfInput x.material).isSome := by
  have h : matchMaterial {} priceOfInput idleBook 500 [idleJob] [] { window := ⟨100, 200⟩ } =
      .error .divisionByZero := by decide
  exact ⟨h, matchMaterial_divisionByZero h⟩

end Fabrication
