import Fabrication.Proofs.Step.Runs
import Fabrication.Step

/-!
# Well-formed plans

The steps of a stored plan are well formed (`Step.WellFormed`) when

* every step other than a copy makes at least one unit a run and has the runs its quantity
  needs;
* the members of a split group share recipe, activity, product, depth, output per run,
  efficiencies and facility bonus, carry the indices `0, …, k - 1`, and each records the sum
  of the group's runs;
* a recipe key has one unsplit step or one split group;
* a copy step whose recipe has a build step has as many runs and units as the build steps of
  its recipe have runs;
* step identifiers are distinct.

Everything but the group totals and the copies is `Step.Grouped`: recalculation restores
those two from the rest. Every condition reads a step through `Step.wfView`, so lists that
agree there agree on being well formed (`WellFormed.of_views`), and so do lists that are
permutations of each other (`WellFormed.perm`).
-/

namespace Fabrication

namespace Step

/-- The index of a step in its split group, zero when it is not split. -/
def splitIndex (s : Step) : Nat := (s.split.map (·.index)).getD 0

/-- What the members of a split group share. -/
def groupView (s : Step) : Nat × Activity × Nat × Nat × Nat × Nat × Nat × Bonus :=
  (s.recipe, s.activity, s.product, s.depth, s.out, s.me, s.te, s.bonus)

/-- The members of a split group. -/
def membersOf (steps : List Step) (g : Ident) : List Step := steps.filter (·.group == some g)

/-- The runs of the steps of a recipe key. -/
def runsOfKey (steps : List Step) (k : RecipeKey) : Nat :=
  ((steps.filter (·.key == k)).map (·.runs)).sum

/-- Steps whose runs fit their quantities and whose groups and keys are in order. -/
structure Grouped (steps : List Step) : Prop where
  runs : ∀ s ∈ steps, s.isCopy = false → 0 < s.out ∧ s.runs = runsFor s.quantity s.out
  shared : ∀ s ∈ steps, ∀ t ∈ steps, s.group.isSome → s.group = t.group →
    s.groupView = t.groupView
  indices : ∀ g, ((membersOf steps g).map splitIndex).Perm (List.range (membersOf steps g).length)
  keys : ∀ s ∈ steps, ∀ t ∈ steps, s.key = t.key → s.group = t.group ∧ (s.group = none → s.id = t.id)
  ids : (steps.map (·.id)).Nodup

/-- Well-formed steps: grouped, with group totals and copies that follow their build steps. -/
structure WellFormed (steps : List Step) : Prop extends Grouped steps where
  totals : ∀ s ∈ steps, ∀ info, s.split = some info →
    info.total = ((membersOf steps info.group).map (·.runs)).sum
  copies : ∀ c ∈ steps, c.isCopy = true → (∃ b ∈ steps, b.key = ⟨c.recipe, .build⟩) →
    c.runs = c.quantity ∧ c.runs = runsOfKey steps ⟨c.recipe, .build⟩

/-- A step without what well-formedness does not read: duration, target, purchase, matching
and whether its bonus is missing. -/
def wfView (s : Step) : Step :=
  { s with duration := none, target := 0, purchased := false, autoMatch := true,
           bonusMissing := false }

theorem wfView_congr {α : Type} {s t : Step} (h : wfView s = wfView t) (f : Step → α)
    (hf : ∀ u, f (wfView u) = f u) : f s = f t := by
  rw [← hf s, h, hf t]

/-- Filtering and reading steps by what their views show gives the same on lists of equal
views. -/
theorem filter_map_wfView {γ : Type} (p : Step → Bool) (f : Step → γ)
    (hp : ∀ u, p (wfView u) = p u) (hf : ∀ u, f (wfView u) = f u) :
    ∀ {l l' : List Step}, l'.map wfView = l.map wfView → (l'.filter p).map f = (l.filter p).map f
  | [], [], _ => rfl
  | [], _ :: _, h => by cases h
  | _ :: _, [], h => by cases h
  | s :: l, s' :: l', h => by
    simp only [List.map_cons, List.cons.injEq] at h
    have hps : p s' = p s := wfView_congr h.1 p hp
    rw [List.filter_cons, List.filter_cons, hps]
    split
    · rw [List.map_cons, List.map_cons, wfView_congr h.1 f hf, filter_map_wfView p f hp hf h.2]
    · exact filter_map_wfView p f hp hf h.2

section Transfer

variable {steps steps' : List Step}

theorem exists_of_views (h : steps'.map wfView = steps.map wfView) {s' : Step} (hs : s' ∈ steps') :
    ∃ s ∈ steps, wfView s = wfView s' := by
  have : wfView s' ∈ steps.map wfView := h ▸ List.mem_map_of_mem hs
  simpa using this

theorem membersOf_views (h : steps'.map wfView = steps.map wfView) {γ : Type} (f : Step → γ)
    (hf : ∀ u, f (wfView u) = f u) (g : Ident) :
    (membersOf steps' g).map f = (membersOf steps g).map f :=
  filter_map_wfView _ f (fun _ => rfl) hf h

theorem runsOfKey_views (h : steps'.map wfView = steps.map wfView) (k : RecipeKey) :
    runsOfKey steps' k = runsOfKey steps k := by
  unfold runsOfKey
  rw [filter_map_wfView _ runs (fun _ => rfl) (fun _ => rfl) h]

theorem Grouped.of_views (h : steps'.map wfView = steps.map wfView) (hw : Grouped steps) :
    Grouped steps' := by
  refine ⟨fun s' hs' hcopy => ?_, fun s' hs' t' ht' hg hgt => ?_, fun g => ?_,
    fun s' hs' t' ht' hk => ?_, ?_⟩
  · obtain ⟨s, hs, hv⟩ := exists_of_views h hs'
    have hcopy' : s.isCopy = s'.isCopy := wfView_congr hv isCopy (fun _ => rfl)
    have hout : s.out = s'.out := wfView_congr hv out (fun _ => rfl)
    have hruns : s.runs = s'.runs := wfView_congr hv Step.runs (fun _ => rfl)
    have hq : s.quantity = s'.quantity := wfView_congr hv quantity (fun _ => rfl)
    rw [← hout, ← hruns, ← hq]
    exact hw.runs s hs (hcopy'.trans hcopy)
  · obtain ⟨s, hs, hv⟩ := exists_of_views h hs'
    obtain ⟨t, ht, hv'⟩ := exists_of_views h ht'
    have hgs : s.group = s'.group := wfView_congr hv group (fun _ => rfl)
    have hgt' : t.group = t'.group := wfView_congr hv' group (fun _ => rfl)
    have hvs : s.groupView = s'.groupView := wfView_congr hv groupView (fun _ => rfl)
    have hvt : t.groupView = t'.groupView := wfView_congr hv' groupView (fun _ => rfl)
    rw [← hvs, ← hvt]
    exact hw.shared s hs t ht (hgs ▸ hg) (hgs.trans (hgt.trans hgt'.symm))
  · have e := membersOf_views h splitIndex (fun _ => rfl) g
    have hlen : (membersOf steps' g).length = (membersOf steps g).length := by
      rw [← List.length_map (f := splitIndex), e, List.length_map]
    rw [e, hlen]
    exact hw.indices g
  · obtain ⟨s, hs, hv⟩ := exists_of_views h hs'
    obtain ⟨t, ht, hv'⟩ := exists_of_views h ht'
    have hks : s.key = s'.key := wfView_congr hv key (fun _ => rfl)
    have hkt : t.key = t'.key := wfView_congr hv' key (fun _ => rfl)
    have hgs : s.group = s'.group := wfView_congr hv group (fun _ => rfl)
    have hgt : t.group = t'.group := wfView_congr hv' group (fun _ => rfl)
    have his : s.id = s'.id := wfView_congr hv Step.id (fun _ => rfl)
    have hit : t.id = t'.id := wfView_congr hv' Step.id (fun _ => rfl)
    rw [← hgs, ← hgt, ← his, ← hit]
    exact hw.keys s hs t ht (hks.trans (hk.trans hkt.symm))
  · have hids : steps'.map Step.id = steps.map Step.id := by
      have hcomp : (Step.id : Step → Ident) = Step.id ∘ wfView := rfl
      rw [hcomp, ← List.map_map, ← List.map_map, h]
    rw [hids]
    exact hw.ids

theorem WellFormed.of_views (h : steps'.map wfView = steps.map wfView) (hw : WellFormed steps) :
    WellFormed steps' := by
  refine ⟨hw.toGrouped.of_views h, fun s' hs' info hinfo => ?_, fun c' hc' hcopy hb => ?_⟩
  · obtain ⟨s, hs, hv⟩ := exists_of_views h hs'
    have hsplit : s.split = s'.split := wfView_congr hv split (fun _ => rfl)
    rw [membersOf_views h runs (fun _ => rfl)]
    exact hw.totals s hs info (hsplit.trans hinfo)
  · obtain ⟨c, hc, hv⟩ := exists_of_views h hc'
    have hcopy' : c.isCopy = c'.isCopy := wfView_congr hv isCopy (fun _ => rfl)
    have hrecipe : c.recipe = c'.recipe := wfView_congr hv recipe (fun _ => rfl)
    have hruns : c.runs = c'.runs := wfView_congr hv Step.runs (fun _ => rfl)
    have hq : c.quantity = c'.quantity := wfView_congr hv quantity (fun _ => rfl)
    obtain ⟨b', hb', hbk⟩ := hb
    obtain ⟨b, hb, hbv⟩ := exists_of_views h hb'
    have hbk' : b.key = ⟨c.recipe, .build⟩ := by
      rw [show b.key = b'.key from wfView_congr hbv key (fun _ => rfl), hbk, hrecipe]
    rw [← hruns, ← hq, ← hrecipe, runsOfKey_views h]
    exact hw.copies c hc (hcopy'.trans hcopy) ⟨b, hb, hbk'⟩

theorem Grouped.perm (hp : steps.Perm steps') (hw : Grouped steps) : Grouped steps' := by
  refine ⟨fun s hs => hw.runs s (hp.mem_iff.2 hs),
    fun s hs t ht => hw.shared s (hp.mem_iff.2 hs) t (hp.mem_iff.2 ht), fun g => ?_,
    fun s hs t ht => hw.keys s (hp.mem_iff.2 hs) t (hp.mem_iff.2 ht), (hp.map id).nodup_iff.1 hw.ids⟩
  have hm : (membersOf steps g).Perm (membersOf steps' g) := hp.filter _
  rw [← hm.length_eq]
  exact (hm.map splitIndex).symm.trans (hw.indices g)

theorem WellFormed.perm (hp : steps.Perm steps') (hw : WellFormed steps) : WellFormed steps' := by
  have hkey : ∀ k, runsOfKey steps' k = runsOfKey steps k := fun k =>
    ((hp.filter _).map runs).sum_eq.symm
  refine ⟨hw.toGrouped.perm hp, fun s hs info hinfo => ?_, fun c hc hcopy hb => ?_⟩
  · rw [hw.totals s (hp.mem_iff.2 hs) info hinfo]
    exact ((hp.filter _).map runs).sum_eq
  · obtain ⟨b, hb, hbk⟩ := hb
    rw [hkey]
    exact hw.copies c (hp.mem_iff.2 hc) hcopy ⟨b, hp.mem_iff.2 hb, hbk⟩

end Transfer

end Step

end Fabrication
