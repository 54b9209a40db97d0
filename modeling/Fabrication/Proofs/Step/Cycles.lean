import Fabrication.Proofs.Step.Settle

/-!
# Cycles among conversion steps

Before reconciling, the conversion steps are checked for cycles. A conversion step feeds each
conversion step whose recipe lists its product as an input; when several conversion steps make
the same product, only the last of them feeds (`ConversionEdge`). The check runs Kahn's loop
over this graph, whose positions left unvisited are those on or after a cycle
(`Step.Kahn.drain_inDegree_pos_iff`).

Main statement: the check passes exactly when the feeding graph has no cycle, a self-loop
included, and otherwise reports the products of the conversion steps on or after a cycle, in
ascending order (`checkCycles_iff_acyclic`).
-/

namespace Fabrication

open Relation

namespace Step

/-! ## The feeding graph -/

/-- The conversion steps of a plan, in plan order. -/
def conversionSteps (steps : List Step) : List Step := steps.filter (·.activity == .convert)

/-- An edge of the feeding graph of the conversion steps, on their positions among them: the
recipe of `c` in the book lists an input that `p` makes, and no conversion step after `p`
makes it. -/
def ConversionEdge (steps : List Step) (book : RecipeBook) (p c : Nat) : Prop :=
  ∃ P C r, (conversionSteps steps)[p]? = some P ∧ (conversionSteps steps)[c]? = some C ∧
    book.get? C.key = some r ∧ (∃ x ∈ r.inputs, x.material = P.product) ∧
    ∀ q Q, p < q → (conversionSteps steps)[q]? = some Q → Q.product ≠ P.product

/-- Looking a material up from the back finds the last step that makes it. -/
theorem lastProducer_eq_some {l : List Step} {m p : Nat} :
    (l.zipIdx.reverse.find? (·.1.product == m)).map (·.2) = some p ↔
      (∃ P, l[p]? = some P ∧ P.product = m) ∧ ∀ q Q, p < q → l[q]? = some Q → Q.product ≠ m := by
  induction l using List.reverseRecOn generalizing p with
  | nil => simp
  | append_singleton l a ih =>
    rw [List.zipIdx_append, List.reverse_append]
    by_cases ha : a.product = m
    · simp only [List.zipIdx_singleton, Nat.zero_add, List.reverse_singleton, List.singleton_append,
        List.find?_cons, ha, beq_self_eq_true, Option.map_some, Option.some.injEq]
      constructor
      · rintro rfl
        refine ⟨⟨a, by simp, ha⟩, fun q Q hq hQ => ?_⟩
        rw [List.getElem?_eq_none (by simp; omega)] at hQ
        cases hQ
      · rintro ⟨⟨P, hP, -⟩, hlast⟩
        have hp : p < l.length + 1 := by simpa using (List.getElem?_eq_some_iff.1 hP).1
        by_contra hne
        exact hlast l.length a (by omega) (by simp) ha
    · simp [ha, ih]
      grind

theorem mem_feeds_iff_edge {steps : List Step} {book : RecipeBook} {p c : Nat} :
    (p, c) ∈ feeds (conversionSteps steps) book ↔ ConversionEdge steps book p c := by
  unfold feeds ConversionEdge
  simp only [List.mem_flatMap, Prod.exists]
  constructor
  · rintro ⟨C, j, hmem, h⟩
    have hC := List.mem_zipIdx_iff_getElem?.1 hmem
    cases hr : book.get? C.key with
    | none => simp [hr] at h
    | some r =>
      simp only [hr, List.mem_filterMap] at h
      obtain ⟨m, hm, hmap⟩ := h
      obtain ⟨p', hlast, hpc⟩ := Option.map_eq_some_iff.1 hmap
      obtain ⟨rfl, rfl⟩ := Prod.mk.inj hpc
      obtain ⟨⟨P, hP, rfl⟩, hafter⟩ := lastProducer_eq_some.1 hlast
      exact ⟨P, C, r, hP, hC, hr, mem_inputMaterials.1 hm, hafter⟩
  · rintro ⟨P, C, r, hP, hC, hr, hin, hafter⟩
    refine ⟨C, c, List.mem_zipIdx_iff_getElem?.2 hC, ?_⟩
    simp only [hr, List.mem_filterMap]
    exact ⟨P.product, mem_inputMaterials.2 hin,
      Option.map_eq_some_iff.2 ⟨p, lastProducer_eq_some.2 ⟨⟨P, hP, rfl⟩, hafter⟩, rfl⟩⟩

/-- The check, with the state Kahn's loop ends in named. -/
theorem checkCycles_eq (steps : List Step) (book : RecipeBook) :
    checkCycles steps book =
      let n := (conversionSteps steps).length
      let done := Kahn.drain (feeds (conversionSteps steps) book) n
        (Kahn.start (feeds (conversionSteps steps) book) n)
      if done.visited < n then
        .error (.cycleDetected (sortBy (· ≤ ·) (((List.range n).filter
          fun i => 0 < done.inDegree.getD i 0).filterMap
            fun i => ((conversionSteps steps)[i]?).map (·.product))))
      else .ok () := rfl

open Classical in
/-- The cycle check passes exactly when the feeding graph of the conversion steps has no cycle
(a step feeding itself included); otherwise it reports the products of the conversion steps
that lie on a cycle or are fed from one, in ascending order. -/
theorem checkCycles_iff_acyclic (steps : List Step) (book : RecipeBook) :
    (checkCycles steps book = .ok () ↔ ∀ i, ¬ TransGen (ConversionEdge steps book) i i) ∧
    ∀ e, checkCycles steps book = .error e → ∃ v, e = .cycleDetected v ∧ v.Pairwise (· ≤ ·) ∧
      v.Perm (((List.range (conversionSteps steps).length).filter
        fun i => FedFromCycle (ConversionEdge steps book) i).filterMap
          fun i => ((conversionSteps steps)[i]?).map (·.product)) := by
  rw [checkCycles_eq]
  dsimp only
  have hrel : (fun p c => (p, c) ∈ feeds (conversionSteps steps) book) =
      ConversionEdge steps book := by
    funext p c
    exact propext mem_feeds_iff_edge
  have hE : ∀ p c, (p, c) ∈ feeds (conversionSteps steps) book →
      p < (conversionSteps steps).length ∧ c < (conversionSteps steps).length :=
    fun _ _ => feeds_lt
  have hleft := Kahn.drain_inDegree_pos_iff hE
  have hvisited := Kahn.drain_visited_lt_iff hE
  rw [hrel] at hleft hvisited
  rw [List.filter_congr fun i hi =>
    decide_eq_decide.2 ((and_iff_right (List.mem_range.1 hi)).symm.trans (hleft i))]
  by_cases hcyc : ∃ v, FedFromCycle (ConversionEdge steps book) v
  · rw [if_pos (hvisited.2 hcyc)]
    obtain ⟨i, hi⟩ := exists_fedFromCycle_iff.1 hcyc
    refine ⟨iff_of_false (by simp) fun hac => hac i hi, fun e he => ?_⟩
    cases he
    refine ⟨_, rfl, ?_, sortBy_perm _ _⟩
    exact (sortBy_pairwise (fun a b => by simpa using Nat.le_total a b)
      (fun a b c hab hbc => by simp at hab hbc ⊢; omega) _).imp (by simp)
  · rw [if_neg (mt hvisited.1 hcyc)]
    exact ⟨iff_of_true rfl fun i hi => hcyc (exists_fedFromCycle_iff.2 ⟨i, hi⟩),
      fun e he => by cases he⟩

/-- Conversions of 20 from 10 and of 10 from 20, of 30 from 10, and of 40 from nothing. -/
def loopBook : RecipeBook := ⟨[
  { id := 1, activity := .convert, inputs := [⟨10, 1⟩], outputs := [⟨20, 1⟩], baseDuration := 0 },
  { id := 2, activity := .convert, inputs := [⟨20, 1⟩], outputs := [⟨10, 1⟩], baseDuration := 0 },
  { id := 3, activity := .convert, inputs := [⟨10, 1⟩], outputs := [⟨30, 1⟩], baseDuration := 0 },
  { id := 4, activity := .convert, inputs := [], outputs := [⟨40, 1⟩], baseDuration := 0 }]⟩

/-- One conversion step of each recipe of `loopBook`, the independent one first. -/
def loopSteps : List Step := [
  { id := .given 4, recipe := 4, activity := .convert, product := 40 },
  { id := .given 1, recipe := 1, activity := .convert, product := 20 },
  { id := .given 2, recipe := 2, activity := .convert, product := 10 },
  { id := .given 3, recipe := 3, activity := .convert, product := 30 }]

/-- The two conversions feeding each other are refused with the one fed from them: the feeding
graph has a cycle. -/
theorem checkCycles_reports_loop :
    checkCycles loopSteps loopBook = .error (.cycleDetected [10, 20, 30]) ∧
      ¬ ∀ i, ¬ TransGen (ConversionEdge loopSteps loopBook) i i := by
  have hcheck : checkCycles loopSteps loopBook = .error (.cycleDetected [10, 20, 30]) := by decide
  refine ⟨hcheck, fun hacyclic => ?_⟩
  have hok := (checkCycles_iff_acyclic loopSteps loopBook).1.2 hacyclic
  rw [hcheck] at hok
  cases hok

end Step

end Fabrication
