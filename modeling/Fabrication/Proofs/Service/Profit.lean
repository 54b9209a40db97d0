import Fabrication.Proofs.Service.Operations
import Fabrication.Matching.Profit

/-!
# Computing profit replaces the matches of its window

A profit report pairs, product by product, the delivered jobs with the sales of the window,
first in, first out. Every allocation it makes records one of the sales it was given
(`pairUp_records`), and those are sales of an asked product made within the window, so every
allocation of a report is of an asked product and sold within the window
(`computeProfit_allocations_within`).

The service stores the allocations in place of the user's matches of the asked products sold
in the window and touches nothing else. Since the new allocations are themselves of the kind
that is replaced, computing the same profit again finds the same report and writes the store
it finds (`Service.computeProfit_replaces_window`).
-/

namespace Fabrication

/-- A match records a sale when it names the sale and carries its product and time. -/
def ProfitMatch.Records (m : ProfitMatch) (s : Sale) : Prop :=
  m.sale = s.id ∧ m.material = s.material ∧ m.sold = s.sold

theorem allocate_ok {config : EngineConfig} {lot : Lot} {sale : Sale} {q : Nat} {m : ProfitMatch}
    (h : allocate config lot sale q = .ok m) :
    m.job = lot.job.id ∧ m.sale = sale.id ∧ m.material = sale.material ∧ m.quantity = q ∧
      m.sold = sale.sold := by
  unfold allocate at h
  repeat (obtain ⟨_, _, h⟩ := ok_of_bind h)
  cases h
  exact ⟨rfl, rfl, rfl, rfl, rfl⟩

/-- What is allocated in one round of pairing records the round's sale, and what is allocated
later records a sale of the list the pairing goes on with. -/
private theorem records_append {here rest : List ProfitMatch} {sale : Sale} {left : Nat}
    {sales next : List (Sale × Nat)} (hhere : ∀ m ∈ here, m.Records sale)
    (hrest : ∀ m ∈ rest, ∃ s ∈ next.map Prod.fst, m.Records s)
    (hnext : next.map Prod.fst ⊆ sale :: sales.map Prod.fst) :
    ∀ m ∈ here ++ rest, ∃ s ∈ ((sale, left) :: sales).map Prod.fst, m.Records s := by
  intro m hm
  rcases List.mem_append.1 hm with hm | hm
  · exact ⟨sale, by simp, hhere m hm⟩
  · obtain ⟨s, hs, hrec⟩ := hrest m hm
    rcases List.mem_cons.1 (hnext hs) with rfl | hs
    · exact ⟨s, by simp, hrec⟩
    · exact ⟨s, List.mem_cons_of_mem _ hs, hrec⟩

theorem pairUp_records {config : EngineConfig} {lots : List Lot} {sales : List (Sale × Nat)}
    {ms : List ProfitMatch} {ls : List Lot} {ss : List (Sale × Nat)}
    (h : pairUp config lots sales = .ok (ms, ls, ss)) :
    ∀ m ∈ ms, ∃ s ∈ sales.map Prod.fst, m.Records s := by
  fun_induction pairUp config lots sales generalizing ms ls ss with
  | case1 => cases h; simp
  | case2 => cases h; simp
  | case3 lot lots sale left sales q jp hq ih₃ =>
    rename_i ih₂ ih₁
    obtain ⟨a, ha, h⟩ := ok_of_bind h
    have hhere : ∀ m ∈ [a], m.Records sale := by
      obtain ⟨-, hs, hm, -, hsold⟩ := allocate_ok ha
      simpa using ⟨hs, hm, hsold⟩
    simp only [jp, pure_bind] at h
    split at h
    · split at h
      · obtain ⟨⟨rest, ls', ss'⟩, hrec, h⟩ := ok_of_bind h
        cases h
        exact records_append hhere (ih₃ hrec) (List.subset_cons_self _ _)
      · obtain ⟨⟨rest, ls', ss'⟩, hrec, h⟩ := ok_of_bind h
        cases h
        exact records_append hhere (ih₂ hrec) (List.Subset.refl _)
    · obtain ⟨⟨rest, ls', ss'⟩, hrec, h⟩ := ok_of_bind h
      cases h
      exact records_append hhere (ih₁ hrec) (List.subset_cons_self _ _)
  | case4 lot lots sale left sales q jp hq ih₃ =>
    rename_i ih₂ ih₁
    have hhere : ∀ m ∈ ([] : List ProfitMatch), m.Records sale := by simp
    simp only [jp, pure_bind] at h
    split at h
    · split at h
      · obtain ⟨⟨rest, ls', ss'⟩, hrec, h⟩ := ok_of_bind h
        cases h
        exact records_append hhere (ih₃ hrec) (List.subset_cons_self _ _)
      · obtain ⟨⟨rest, ls', ss'⟩, hrec, h⟩ := ok_of_bind h
        cases h
        exact records_append hhere (ih₂ hrec) (List.Subset.refl _)
    · obtain ⟨⟨rest, ls', ss'⟩, hrec, h⟩ := ok_of_bind h
      cases h
      exact records_append hhere (ih₁ hrec) (List.subset_cons_self _ _)

theorem matchMaterial_records {config : EngineConfig} {prices : Nat → Option Decimal}
    {book : RecipeBook} {material : Nat} {jobs : List Job} {sales : List Sale}
    {report r : ProfitReport} (h : matchMaterial config prices book material jobs sales report = .ok r) :
    ∃ new, r.allocations = report.allocations ++ new ∧ ∀ m ∈ new, ∃ s ∈ sales, m.Records s := by
  unfold matchMaterial at h
  obtain ⟨lots, -, h⟩ := ok_of_bind h
  obtain ⟨⟨new, lotsLeft, salesLeft⟩, hpair, h⟩ := ok_of_bind h
  obtain ⟨summary, -, h⟩ := ok_of_bind h
  cases h
  refine ⟨new, rfl, fun m hm => ?_⟩
  obtain ⟨s, hs, hrec⟩ := pairUp_records hpair m hm
  simp only [List.map_map, List.mem_map, Function.comp_apply, mem_sortBy] at hs
  obtain ⟨s, hs, rfl⟩ := hs
  exact ⟨s, hs, hrec⟩

theorem computeProfit_allocations_within {config : EngineConfig} {req : ProfitRequest} {world : World}
    {report : ProfitReport} (h : computeProfit config req world = .ok report) :
    ∀ m ∈ report.allocations, req.window.contains m.sold = true ∧ m.material ∈ req.materials := by
  unfold computeProfit at h
  dsimp only at h
  split at h
  · cases h
    simp
  · refine foldlM_invariant (fun r : ProfitReport => ∀ m ∈ r.allocations,
      req.window.contains m.sold = true ∧ m.material ∈ req.materials) h (by simp) ?_
    intro r mat r' hmat hr hstep
    obtain ⟨new, hnew, hrec⟩ := matchMaterial_records hstep
    rw [hnew]
    intro m hm
    rcases List.mem_append.1 hm with hm | hm
    · exact hr m hm
    · obtain ⟨sale, hsale, -, hmaterial, hsold⟩ := hrec m hm
      simp only [List.mem_filter, World.salesOf, Bool.and_eq_true, beq_iff_eq] at hsale
      obtain ⟨⟨-, ⟨hsaleMat, -⟩, -⟩, hwindow⟩ := hsale
      rw [hsold, hmaterial, hsaleMat]
      exact ⟨hwindow, mem_ascendingSet.1 hmat⟩

namespace Service

variable {s t : Service}

/-- Computing profit succeeds when the report can be worked out and the store takes its
allocations. -/
theorem run_computeProfit_of_ok {req : ProfitRequest} {report : ProfitReport} {store : PlanStore}
    (hreport : Fabrication.computeProfit s.config req s.world = .ok report)
    (hwrite : (PlanStore.replaceProfitMatches req.user req.window req.materials
      report.allocations).run s.store = .ok () store) :
    (computeProfit req).run s = .ok report { s with store } := by
  unfold computeProfit
  simp only [EStateM.run_bind, EStateM.run_get, hreport, Outcome.ofFault, Except.mapError]
  rw [show (ServiceOp.lift (.ok report)).run s = .ok report s from rfl]
  dsimp only
  rw [run_write, hwrite]
  rfl

/-- After profit is computed, the user's stored profit matches are the earlier ones less those
of the asked materials sold in the window, followed by the report's allocations; other users'
matches, the plans and the job matches are as they were; and computing the same profit again
answers the same report and leaves the service as it is. -/
theorem computeProfit_replaces_window (req : ProfitRequest) (s : Service) {report : ProfitReport}
    {t : Service} (h : (computeProfit req).run s = .ok report t) :
    t.store.profitMatchesOfUser req.user =
        (s.store.profitMatchesOfUser req.user).filter
          (fun m => !(req.window.contains m.sold && req.materials.contains m.material)) ++
          report.allocations ∧
      (∀ u, u ≠ req.user → t.store.profitMatchesOfUser u = s.store.profitMatchesOfUser u) ∧
      t.store.plans = s.store.plans ∧ t.store.jobMatches = s.store.jobMatches ∧
      (computeProfit req).run t = .ok report t := by
  obtain ⟨hreport, hwrite, ht⟩ := computeProfit_ok h
  have hstore := PlanStore.replaceProfitMatches_ok hwrite
  refine ⟨?_, fun u hu => ?_, by rw [hstore], by rw [hstore], ?_⟩
  · rw [hstore, PlanStore.profitMatchesOfUser_put, if_pos rfl]
  · rw [hstore, PlanStore.profitMatchesOfUser_put, if_neg hu]
  · have hwithin : ∀ m ∈ report.allocations,
        (req.window.contains m.sold && req.materials.contains m.material) = true := by
      intro m hm
      obtain ⟨hwindow, hmaterial⟩ := computeProfit_allocations_within hreport m hm
      simp [hwindow, hmaterial]
    have hagain := PlanStore.replaceProfitMatches_again hwithin hwrite
    have hsources : Fabrication.computeProfit t.config req t.world = .ok report := by
      rw [ht]
      exact hreport
    exact run_computeProfit_of_ok hsources hagain

/-- A world with a delivered job that made two of product `5` and a sale of one of them in the
window `[100, 200)`, and a store holding three matches of user `1` (one of product `5` sold in
the window, one sold after it, one of product `6`) and one of user `2`. -/
def profitSample : Service where
  world :=
    { recipes := [⟨10, .build, [], [⟨5, 1⟩], 60⟩],
      jobs := [{ id := 7, recipe := 10, product := 5, runs := 2, status := .delivered,
                 started := 100, ended := some 150 }],
      sales := [{ id := 3, material := 5, quantity := 1, price := ⟨false, 40, 0⟩, sold := 160 }] }
  store :=
    { profitMatches :=
        [(1, [{ (default : ProfitMatch) with material := 5, sold := 150 },
              { (default : ProfitMatch) with material := 5, sold := 250 },
              { (default : ProfitMatch) with material := 6, sold := 150 }]),
         (2, [{ (default : ProfitMatch) with material := 5, sold := 150 }])] }

/-- The profit of product `5` for user `1` in the window `[100, 200)`. -/
def profitSampleRequest : ProfitRequest :=
  { user := 1, materials := [5], window := ⟨100, 200⟩, jobsSince := 0 }

/-- On the sample, the sale is paired with the job, the user's match of product `5` sold in the
window gives way to that allocation, and the other matches stay. -/
theorem computeProfit_replaces_window_sample :
    ∃ report t, (computeProfit profitSampleRequest).run profitSample = .ok report t ∧
      report.allocations.length = 1 ∧
      t.store.profitMatchesOfUser 1 =
        [{ (default : ProfitMatch) with material := 5, sold := 250 },
         { (default : ProfitMatch) with material := 6, sold := 150 }] ++ report.allocations ∧
      t.store.profitMatchesOfUser 2 = [{ (default : ProfitMatch) with material := 5, sold := 150 }] ∧
      (computeProfit profitSampleRequest).run t = .ok report t := by
  obtain ⟨report, t, hrun, hone⟩ := EStateM.exists_ok_of_check
    (r := (computeProfit profitSampleRequest).run profitSample)
    (p := fun report _ => report.allocations.length == 1) (by decide +kernel)
  obtain ⟨hmine, hothers, -, -, hagain⟩ := computeProfit_replaces_window _ _ hrun
  refine ⟨report, t, hrun, by simpa using hone, ?_, ?_, hagain⟩
  · exact hmine.trans rfl
  · exact (hothers 2 (by decide)).trans rfl

end Service

end Fabrication
