import Mathlib
import Fabrication.Proofs.Service.Profit

/-!
# Profit matching is first in, first out

A product's jobs, in order of delivery, make a row of units, each job as many as its runs times
what its recipe makes per run, held at the largest count; its sales, in order of sale, ask for
a row of units too. Pairing them first in, first out pairs the `k`-th unit made with the
`k`-th unit sold. `matchMaterial` allocates each stretch of units paired between one job and
one sale at once, and leaves unpaired the units beyond the shorter row (`matchMaterial_fifo`).

Each unit is tagged with the place of its job or sale in its row and with its id, so that the
stretches of two jobs, or two sales, that share an id stay apart: `placedUnits` lays the units
out, and `runs` reads the stretches back (`runs_placedUnits`).
-/

namespace Fabrication

section Runs

variable {α : Type} [DecidableEq α]

/-- Put an element in front of the stretches of a list. -/
def pushRun (a : α) : List (α × Nat) → List (α × Nat)
  | (b, n) :: rs => if a = b then (b, n + 1) :: rs else (a, 1) :: (b, n) :: rs
  | [] => [(a, 1)]

/-- The maximal stretches of equal neighbours in a list, each with its length. -/
def runs (l : List α) : List (α × Nat) := l.foldr pushRun []

@[simp] theorem runs_nil : runs ([] : List α) = [] := rfl

theorem runs_cons (a : α) (l : List α) : runs (a :: l) = pushRun a (runs l) := rfl

theorem head?_runs (l : List α) : (runs l).head?.map Prod.fst = l.head? := by
  cases l with
  | nil => rfl
  | cons a l =>
    rw [runs_cons]
    unfold pushRun
    split
    · split <;> simp_all
    · rfl

/-- A stretch of `q` copies of `a` in front of a list that does not start with `a` is one
stretch of its own. -/
theorem runs_replicate_append {q : Nat} (hq : 0 < q) {a : α} {l : List α}
    (hl : l.head? ≠ some a) : runs (List.replicate q a ++ l) = (a, q) :: runs l := by
  induction q with
  | zero => cases hq
  | succ k ih =>
    rw [List.replicate_succ, List.cons_append, runs_cons]
    cases k with
    | zero =>
      have hhead := head?_runs l
      simp only [List.replicate_zero, List.nil_append]
      cases hrs : runs l with
      | nil => rfl
      | cons r rs =>
        obtain ⟨b, n⟩ := r
        rw [hrs] at hhead
        have hab : a ≠ b := fun hb => hl (by simpa [hb] using hhead.symm)
        simp [pushRun, hab]
    | succ k =>
      rw [ih (Nat.succ_pos k)]
      simp [pushRun]

end Runs

section Units

/-- Units laid out in a row: a stretch of `n` units tagged with their place, counted from
`start`, and with `id`, for each entry `(n, id)` in turn. -/
def placedUnits : Nat → List (Nat × Nat) → List (Nat × Nat)
  | _, [] => []
  | start, (n, id) :: xs => List.replicate n (start, id) ++ placedUnits (start + 1) xs

theorem le_of_mem_placedUnits {start : Nat} {xs : List (Nat × Nat)} {u : Nat × Nat}
    (hu : u ∈ placedUnits start xs) : start ≤ u.1 := by
  induction xs generalizing start with
  | nil => cases hu
  | cons x xs ih =>
    rcases List.mem_append.1 hu with hu | hu
    · rw [(List.mem_replicate.1 hu).2]
    · exact Nat.le_of_succ_le (ih hu)

/-- A row of units that starts past `start` does not start with a unit placed at `start`. -/
theorem head?_placedUnits_ne {start : Nat} (xs : List (Nat × Nat)) (id : Nat) :
    (placedUnits (start + 1) xs).head? ≠ some (start, id) := fun h => by
  have := le_of_mem_placedUnits (List.mem_of_head? h)
  simp at this

/-- The stretches of a row of units are its entries with units, each tagged with its id. -/
theorem runs_placedUnits (start : Nat) (xs : List (Nat × Nat)) :
    (runs (placedUnits start xs)).map (fun u => (u.1.2, u.2)) =
      (xs.filter (0 < ·.1)).map fun x => (x.2, x.1) := by
  induction xs generalizing start with
  | nil => rfl
  | cons x xs ih =>
    obtain ⟨n, id⟩ := x
    by_cases hn : 0 < n
    · rw [placedUnits, runs_replicate_append hn (head?_placedUnits_ne xs id), List.map_cons, ih,
        List.filter_cons_of_pos (by simpa using hn), List.map_cons]
    · obtain rfl : n = 0 := by omega
      rw [placedUnits, List.replicate_zero, List.nil_append, ih,
        List.filter_cons_of_neg (by simp)]

theorem zip_replicate_append {α β : Type} (q : Nat) (a : α) (b : β) (l₁ : List α) (l₂ : List β) :
    (List.replicate q a ++ l₁).zip (List.replicate q b ++ l₂) =
      List.replicate q (a, b) ++ l₁.zip l₂ := by
  induction q with
  | zero => rfl
  | succ k ih => simp [List.replicate_succ, ih]

end Units

section Pairing

/-- The stretches paired between a row of units made and a row of units sold: the ids of the
job and the sale, and how many units. -/
def pairedRuns (made sold : List (Nat × Nat)) : List (Nat × Nat × Nat) :=
  (runs (made.zip sold)).map fun u => (u.1.1.2, u.1.2.2, u.2)

/-- The stretches of a row of units beyond the length of another row, with their ids. -/
def unitsBeyond (row other : List (Nat × Nat)) : List (Nat × Nat) :=
  (runs (row.drop other.length)).map fun u => (u.1.2, u.2)

/-- The units left of lots, with their jobs' ids. -/
def lotRow (lots : List Lot) : List (Nat × Nat) := lots.map fun l => (l.left, l.job.id)

/-- The units left of sales, with their ids. -/
def saleRow (sales : List (Sale × Nat)) : List (Nat × Nat) := sales.map fun x => (x.2, x.1.id)

/-- The lots and sales a round of pairing goes on with: the lot is used up when the sale asks for
all it has, the sale when the lot has more. -/
def nextRound (lot : Lot) (lots : List Lot) (sale : Sale) (left : Nat)
    (sales : List (Sale × Nat)) : List Lot × List (Sale × Nat) :=
  if lot.left ≤ left then
    (lots, if left - Nat.min lot.left left = 0 then sales else (sale, left - Nat.min lot.left left) :: sales)
  else ({ lot with left := lot.left - Nat.min lot.left left } :: lots, sales)

/-- One round of pairing allocates the units both sides still have, if any, and goes on with
what is left. -/
theorem pairUp_cons_cons {config : EngineConfig} {lot : Lot} {lots : List Lot} {sale : Sale}
    {left : Nat} {sales : List (Sale × Nat)} {ms : List ProfitMatch} {ls : List Lot}
    {ss : List (Sale × Nat)} (h : pairUp config (lot :: lots) ((sale, left) :: sales) = .ok (ms, ls, ss)) :
    ∃ here rest, ms = here ++ rest ∧
      here.map (fun m => (m.job, m.sale, m.quantity)) =
        (if 0 < Nat.min lot.left left then [(lot.job.id, sale.id, Nat.min lot.left left)] else []) ∧
      pairUp config (nextRound lot lots sale left sales).1 (nextRound lot lots sale left sales).2 =
        .ok (rest, ls, ss) := by
  rw [pairUp] at h
  split at h
  on_goal 1 =>
    rename_i hq
    obtain ⟨a, ha, h⟩ := ok_of_bind h
    obtain ⟨hjob, hsale, -, hqty, -⟩ := allocate_ok ha
    have hhere : [a].map (fun m => (m.job, m.sale, m.quantity)) =
        (if 0 < Nat.min lot.left left then [(lot.job.id, sale.id, Nat.min lot.left left)] else []) := by
      simp [hjob, hsale, hqty, hq]
    simp only [pure_bind] at h
    revert hhere h
    generalize [a] = here
    intro hhere h
  on_goal 2 =>
    rename_i hq
    have hhere : ([] : List ProfitMatch).map (fun m => (m.job, m.sale, m.quantity)) =
        (if 0 < Nat.min lot.left left then [(lot.job.id, sale.id, Nat.min lot.left left)] else []) :=
      (if_neg hq).symm
    simp only [pure_bind] at h
    revert hhere h
    generalize ([] : List ProfitMatch) = here
    intro hhere h
  all_goals
    refine ⟨here, ?_⟩
    unfold nextRound
    split at h
    · rename_i hle
      rw [if_pos hle]
      split at h
      · rename_i hz
        obtain ⟨⟨rest, ls', ss'⟩, hrec, h⟩ := ok_of_bind h
        cases h
        rw [if_pos (beq_iff_eq.1 hz)]
        exact ⟨rest, rfl, hhere, hrec⟩
      · rename_i hz
        obtain ⟨⟨rest, ls', ss'⟩, hrec, h⟩ := ok_of_bind h
        cases h
        rw [if_neg fun h0 => hz (beq_iff_eq.2 h0)]
        exact ⟨rest, rfl, hhere, hrec⟩
    · rename_i hle
      rw [if_neg hle]
      obtain ⟨⟨rest, ls', ss'⟩, hrec, h⟩ := ok_of_bind h
      cases h
      exact ⟨rest, rfl, hhere, hrec⟩

/-- A round of pairing uses up its lot or its sale. -/
theorem length_nextRound (lot : Lot) (lots : List Lot) (sale : Sale) (left : Nat)
    (sales : List (Sale × Nat)) :
    (nextRound lot lots sale left sales).1.length + (nextRound lot lots sale left sales).2.length <
      (lot :: lots).length + ((sale, left) :: sales).length := by
  unfold nextRound
  split_ifs <;> simp
  omega

/-- A pair of rows whose first units sit past the places `(i, j)` in one of the rows does not
start with a pair of units at those places. -/
theorem head?_zip_ne {made sold : List (Nat × Nat)} {i j : Nat}
    (hpast : (∀ u ∈ made, i < u.1) ∨ ∀ u ∈ sold, j < u.1) (x y : Nat) :
    (made.zip sold).head? ≠ some ((i, x), (j, y)) := fun h => by
  obtain ⟨hmade, hsold⟩ := List.of_mem_zip (List.mem_of_head? h)
  rcases hpast with hpast | hpast
  · exact absurd (hpast _ hmade) (Nat.lt_irrefl i)
  · exact absurd (hpast _ hsold) (Nat.lt_irrefl j)

/-- The rows of units of a round are the units the round pairs, in front of the rows of units
the round goes on with. -/
theorem placedUnits_nextRound (lot : Lot) (lots : List Lot) (sale : Sale) (left : Nat)
    (sales : List (Sale × Nat)) (i j : Nat) :
    ∃ i' j', placedUnits i (lotRow (lot :: lots)) =
        List.replicate (Nat.min lot.left left) (i, lot.job.id) ++
          placedUnits i' (lotRow (nextRound lot lots sale left sales).1) ∧
      placedUnits j (saleRow ((sale, left) :: sales)) =
        List.replicate (Nat.min lot.left left) (j, sale.id) ++
          placedUnits j' (saleRow (nextRound lot lots sale left sales).2) ∧
      ((placedUnits i' (lotRow (nextRound lot lots sale left sales).1)).zip
        (placedUnits j' (saleRow (nextRound lot lots sale left sales).2))).head? ≠
          some ((i, lot.job.id), (j, sale.id)) := by
  -- a stretch of `n` units is the `q` the round pairs, then the `n - q` left
  have hsplit : ∀ {n q : Nat} (u : Nat × Nat), q ≤ n →
      List.replicate n u = List.replicate q u ++ List.replicate (n - q) u := fun u hqn => by
    rw [← List.replicate_add, Nat.add_sub_cancel' hqn]
  have hpast : ∀ {k : Nat} (xs : List (Nat × Nat)), ∀ u ∈ placedUnits (k + 1) xs, k < u.1 :=
    fun xs u hu => le_of_mem_placedUnits hu
  unfold nextRound
  by_cases hle : lot.left ≤ left
  · have hq : Nat.min lot.left left = lot.left := Nat.min_eq_left hle
    rw [if_pos hle, hq]
    refine ⟨i + 1, if left - lot.left = 0 then j + 1 else j, rfl, ?_, ?_⟩
    · by_cases hz : left - lot.left = 0
      · rw [if_pos hz, if_pos hz, show left = lot.left by omega]
        rfl
      · rw [if_neg hz, if_neg hz, saleRow, List.map_cons, placedUnits, hsplit _ hle,
          List.append_assoc]
        rfl
    · exact head?_zip_ne (.inl (hpast _)) _ _
  · have hlt : left < lot.left := Nat.lt_of_not_le hle
    have hq : Nat.min lot.left left = left := Nat.min_eq_right (Nat.le_of_lt hlt)
    rw [if_neg hle, hq]
    refine ⟨i, j + 1, ?_, rfl, head?_zip_ne (.inr (hpast _)) _ _⟩
    rw [lotRow, List.map_cons, placedUnits, hsplit _ (Nat.le_of_lt hlt), List.append_assoc]
    rfl

theorem pairedRuns_replicate_append {q : Nat} {x y : Nat × Nat} {made sold : List (Nat × Nat)}
    (hhead : (made.zip sold).head? ≠ some (x, y)) :
    pairedRuns (List.replicate q x ++ made) (List.replicate q y ++ sold) =
      (if 0 < q then [(x.2, y.2, q)] else []) ++ pairedRuns made sold := by
  unfold pairedRuns
  rw [zip_replicate_append]
  by_cases hq : 0 < q
  · rw [runs_replicate_append hq hhead, if_pos hq]
    rfl
  · obtain rfl : q = 0 := by omega
    rfl

theorem unitsBeyond_replicate_append (q : Nat) (x y : Nat × Nat) (row other : List (Nat × Nat)) :
    unitsBeyond (List.replicate q x ++ row) (List.replicate q y ++ other) = unitsBeyond row other := by
  simp [unitsBeyond, List.drop_append]

/-- The stretches of the units of a row are those of its entries with units. -/
theorem unitsBeyond_nil {α : Type} (start : Nat) (xs : List α) (f : α → Nat × Nat) :
    unitsBeyond (placedUnits start (xs.map f)) [] =
      ((xs.filter fun x => (f x).1 > 0).map fun x => ((f x).2, (f x).1)) := by
  rw [unitsBeyond, List.length_nil, List.drop_zero, runs_placedUnits, List.filter_map, List.map_map]
  rfl

/-- Pairing lots with sales pairs the `k`-th unit left of the lots with the `k`-th unit left of
the sales: each allocation is a stretch of units paired between one lot and one sale, and the
lots and sales left are the stretches beyond the shorter row. -/
theorem pairUp_fifo {config : EngineConfig} {lots : List Lot} {sales : List (Sale × Nat)}
    {ms : List ProfitMatch} {ls : List Lot} {ss : List (Sale × Nat)}
    (h : pairUp config lots sales = .ok (ms, ls, ss)) (i j : Nat) :
    ms.map (fun m => (m.job, m.sale, m.quantity)) =
        pairedRuns (placedUnits i (lotRow lots)) (placedUnits j (saleRow sales)) ∧
      (ls.filter (·.left > 0)).map (fun l => (l.job.id, l.left)) =
        unitsBeyond (placedUnits i (lotRow lots)) (placedUnits j (saleRow sales)) ∧
      (ss.filter (·.2 > 0)).map (fun x => (x.1.id, x.2)) =
        unitsBeyond (placedUnits j (saleRow sales)) (placedUnits i (lotRow lots)) := by
  match lots, sales with
  | [], sales =>
    rw [pairUp] at h
    cases h
    exact ⟨rfl, by simp [unitsBeyond, lotRow, placedUnits],
      (unitsBeyond_nil j ss fun x => (x.2, x.1.id)).symm⟩
  | lot :: lots, [] =>
    rw [pairUp] at h
    · cases h
      exact ⟨by simp [pairedRuns, saleRow, placedUnits],
        (unitsBeyond_nil i (lot :: lots) fun l => (l.left, l.job.id)).symm,
        by simp [unitsBeyond, saleRow, placedUnits]⟩
    · exact List.cons_ne_nil _ _
  | lot :: lots, (sale, left) :: sales =>
    obtain ⟨here, rest, rfl, hhere, hrest⟩ := pairUp_cons_cons h
    obtain ⟨i', j', hmade, hsold, hhead⟩ := placedUnits_nextRound lot lots sale left sales i j
    obtain ⟨hms, hls, hss⟩ := pairUp_fifo hrest i' j'
    rw [hmade, hsold, pairedRuns_replicate_append hhead, unitsBeyond_replicate_append,
      unitsBeyond_replicate_append, List.map_append, hhere, hms]
    exact ⟨rfl, hls, hss⟩
termination_by lots.length + sales.length
decreasing_by exact length_nextRound lot lots sale left sales

end Pairing

section Orders

/-- Delivery order is total: of two jobs, one may come before the other. -/
theorem Job.deliveredBefore_total (a b : Job) : a.deliveredBefore b ∨ b.deliveredBefore a := by
  unfold Job.deliveredBefore
  cases a.ended <;> cases b.ended <;> simp <;> omega

theorem Job.deliveredBefore_trans (a b c : Job) (hab : a.deliveredBefore b)
    (hbc : b.deliveredBefore c) : a.deliveredBefore c := by
  unfold Job.deliveredBefore at *
  cases ha : a.ended <;> cases hb : b.ended <;> cases hc : c.ended <;> simp_all <;> omega

theorem Sale.soldBefore_total (a b : Sale) : a.soldBefore b ∨ b.soldBefore a := by
  unfold Sale.soldBefore
  simp
  omega

theorem Sale.soldBefore_trans (a b c : Sale) (hab : a.soldBefore b) (hbc : b.soldBefore c) :
    a.soldBefore c := by
  unfold Sale.soldBefore at *
  simp_all
  omega

/-- Jobs are paired in order of delivery, a job without a delivery time first, then by id. -/
theorem sortBy_deliveredBefore_pairwise (jobs : List Job) :
    (sortBy Job.deliveredBefore jobs).Pairwise fun a b => a.deliveredBefore b :=
  sortBy_pairwise Job.deliveredBefore_total Job.deliveredBefore_trans jobs

/-- Sales are paired in order of sale, then by id. -/
theorem sortBy_soldBefore_pairwise (sales : List Sale) :
    (sortBy Sale.soldBefore sales).Pairwise fun a b => a.soldBefore b :=
  sortBy_pairwise Sale.soldBefore_total Sale.soldBefore_trans sales

end Orders

section Report

/-- The units a job makes of its product: its runs times what its recipe makes per run (one
without recipe), held at the largest count. -/
def Job.unitsMade (book : RecipeBook) (j : Job) : Nat :=
  Count.satMul j.runs (((book.get? ⟨j.recipe, j.activity⟩).bind (·.outputPerRun j.product)).getD 1)

/-- The row of units made: the jobs in order of delivery, a stretch of units for each. -/
def madeUnits (book : RecipeBook) (jobs : List Job) : List (Nat × Nat) :=
  placedUnits 0 (((sortBy Job.deliveredBefore jobs).filter (0 < ·.unitsMade book)).map
    fun j => (j.unitsMade book, j.id))

/-- The row of units sold: the sales in order of sale, a stretch of units for each. -/
def soldUnits (sales : List Sale) : List (Nat × Nat) :=
  placedUnits 0 ((sortBy Sale.soldBefore sales).map fun s => (s.quantity, s.id))

/-- The lot of a job holds the units the job makes, none of them allocated yet. -/
theorem lotOf_ok {config : EngineConfig} {prices : Nat → Option Decimal} {book : RecipeBook}
    {job : Job} {lot : Lot} (h : lotOf config prices book job = .ok lot) :
    lot.job = job ∧ lot.units = job.unitsMade book ∧ lot.left = lot.units := by
  unfold lotOf at h
  obtain ⟨⟨cost, source⟩, -, h⟩ := ok_of_bind h
  cases h
  exact ⟨rfl, rfl, rfl⟩

/-- The lots of jobs with units hold the stretches of the row of units made. -/
theorem lotRow_filter {book : RecipeBook} {jobs : List Job} {lots : List Lot}
    (h : List.Forall₂ (fun j (l : Lot) => l.job = j ∧ l.units = j.unitsMade book ∧ l.left = l.units)
      jobs lots) :
    lotRow (lots.filter (·.units > 0)) =
      (jobs.filter (0 < ·.unitsMade book)).map fun j => (j.unitsMade book, j.id) := by
  induction h with
  | nil => rfl
  | @cons j l _ _ hjl _ ih =>
    obtain ⟨rfl, hunits, hleft⟩ := hjl
    by_cases hpos : 0 < l.job.unitsMade book
    · rw [List.filter_cons_of_pos (by simpa [hunits] using hpos),
        List.filter_cons_of_pos (by simpa using hpos), List.map_cons, ← ih]
      simp [lotRow, hleft, hunits]
    · rw [List.filter_cons_of_neg (by simpa [hunits] using hpos),
        List.filter_cons_of_neg (by simpa using hpos), ih]

/-- Of two rows, the units beyond the other's length are left of one of them at most. -/
theorem unitsBeyond_eq_nil_or (row other : List (Nat × Nat)) :
    unitsBeyond row other = [] ∨ unitsBeyond other row = [] := by
  rcases Nat.le_total row.length other.length with hle | hle
  · left
    simp [unitsBeyond, List.drop_eq_nil_of_le hle]
  · right
    simp [unitsBeyond, List.drop_eq_nil_of_le hle]

/-- Matching a product's jobs with its sales pairs the `k`-th unit made with the `k`-th unit
sold: the allocations it adds are the stretches of units paired between one job and one sale,
in order, each as large as its stretch; the jobs and sales it leaves unmatched are the
stretches beyond the shorter row, in order, with the units each has left; and only one side
has units left. -/
theorem matchMaterial_fifo {config : EngineConfig} {prices : Nat → Option Decimal}
    {book : RecipeBook} {material : Nat} {jobs : List Job} {sales : List Sale}
    {report r : ProfitReport}
    (h : matchMaterial config prices book material jobs sales report = .ok r) :
    ∃ new, r.allocations = report.allocations ++ new ∧
      new.map (fun m => (m.job, m.sale, m.quantity)) =
        pairedRuns (madeUnits book jobs) (soldUnits sales) ∧
      r.unmatchedJobs = report.unmatchedJobs ++
        (unitsBeyond (madeUnits book jobs) (soldUnits sales)).map
          (fun u => UnmatchedJob.mk u.1 material u.2) ∧
      r.unmatchedSales = report.unmatchedSales ++
        (unitsBeyond (soldUnits sales) (madeUnits book jobs)).map
          (fun u => UnmatchedSale.mk u.1 material u.2) ∧
      (unitsBeyond (madeUnits book jobs) (soldUnits sales) = [] ∨
        unitsBeyond (soldUnits sales) (madeUnits book jobs) = []) := by
  unfold matchMaterial at h
  obtain ⟨lots, hlots, h⟩ := ok_of_bind h
  obtain ⟨⟨new, lotsLeft, salesLeft⟩, hpair, h⟩ := ok_of_bind h
  obtain ⟨summary, -, h⟩ := ok_of_bind h
  cases h
  have hmade : placedUnits 0 (lotRow (lots.filter (·.units > 0))) = madeUnits book jobs := by
    rw [lotRow_filter (mapM_forall₂ _ hlots fun _ _ _ hl => lotOf_ok hl)]
    rfl
  have hsold : placedUnits 0 (saleRow ((sortBy Sale.soldBefore sales).map fun s => (s, s.quantity))) =
      soldUnits sales := by
    rw [saleRow, List.map_map]
    rfl
  obtain ⟨hms, hls, hss⟩ := pairUp_fifo hpair 0 0
  rw [hmade, hsold] at hms hls hss
  refine ⟨new, rfl, hms, ?_, ?_, unitsBeyond_eq_nil_or _ _⟩
  · rw [← hls, List.map_map]
    rfl
  · rw [← hss, List.map_map]
    rfl

/-- Two jobs making `500` without a recipe, so one unit a run, listed against their order of
delivery: job `2` of six runs delivered at `3`, job `1` of four runs delivered at `2`. -/
def fifoJobs : List Job :=
  [{ id := 2, recipe := 1, product := 500, runs := 6, status := .delivered, ended := some 3,
     cost := ⟨false, 300, 0⟩ },
   { id := 1, recipe := 1, product := 500, runs := 4, status := .delivered, ended := some 2,
     cost := ⟨false, 200, 0⟩ }]

/-- Sales of `500`, listed against their order of sale: five units sold at `4` (sale `11`),
three at `5` (sale `12`), none at `5` (sale `14`) and four at `6` (sale `13`). -/
def fifoSales : List Sale :=
  [{ id := 13, material := 500, quantity := 4, price := ⟨false, 900, 0⟩, sold := 6 },
   { id := 14, material := 500, quantity := 0, price := ⟨false, 900, 0⟩, sold := 5 },
   { id := 12, material := 500, quantity := 3, price := ⟨false, 1200, 0⟩, sold := 5 },
   { id := 11, material := 500, quantity := 5, price := ⟨false, 1000, 0⟩, sold := 4 }]

/-- On the sample, job `1`'s four units go to sale `11`, and job `2`'s six to the last unit of
sale `11`, the three of sale `12` and two of sale `13`, which keeps two units unsold. -/
theorem matchMaterial_fifo_sample :
    ∃ r, matchMaterial {} (fun _ => none) {} 500 fifoJobs fifoSales { window := ⟨0, 10⟩ } = .ok r ∧
      r.allocations.map (fun m => (m.job, m.sale, m.quantity)) =
        [(1, 11, 4), (2, 11, 1), (2, 12, 3), (2, 13, 2)] ∧
      r.unmatchedJobs = [] ∧ r.unmatchedSales = [⟨13, 500, 2⟩] := by
  obtain ⟨r, hr, -⟩ := exists_ok_of_check
    (x := matchMaterial {} (fun _ => none) {} 500 fifoJobs fifoSales { window := ⟨0, 10⟩ })
    (p := fun _ => true) (by decide +kernel)
  obtain ⟨new, hnew, hpairs, hjobs, hsales, -⟩ := matchMaterial_fifo hr
  refine ⟨r, hr, ?_, ?_, ?_⟩
  · rw [hnew, List.nil_append, hpairs]
    decide
  · rw [hjobs]
    decide
  · rw [hsales]
    decide

/-- A job of `2^63` runs of a recipe that makes four `500` a run. -/
def heavyJob : Job :=
  { id := 1, recipe := 1, product := 500, runs := 9223372036854775808, status := .delivered,
    ended := some 150 }

/-- The recipe of the heavy job. -/
def heavyBook : RecipeBook := ⟨[⟨1, .build, [], [⟨500, 4⟩], 0⟩]⟩

/-- A sale of one `500`. -/
def heavySale : Sale := { id := 1, material := 500, quantity := 1, price := ⟨false, 1, 0⟩, sold := 160 }

/-- A job's units are held at the largest count: the heavy job makes `2^65` units by its runs,
yet after one is sold it is left with one less than the largest count. -/
theorem matchMaterial_saturates_units :
    ∃ r, matchMaterial {} (fun _ => none) heavyBook 500 [heavyJob] [heavySale]
        { window := ⟨100, 200⟩ } = .ok r ∧
      r.unmatchedJobs = [⟨1, 500, Count.top - 1⟩] ∧ Count.top < heavyJob.runs * 4 := by
  obtain ⟨r, hr, hleft⟩ := exists_ok_of_check
    (x := matchMaterial {} (fun _ => none) heavyBook 500 [heavyJob] [heavySale]
      { window := ⟨100, 200⟩ })
    (p := fun r => r.unmatchedJobs == [⟨1, 500, Count.top - 1⟩]) (by decide +kernel)
  exact ⟨r, hr, by simpa using hleft, by decide⟩

end Report

end Fabrication
