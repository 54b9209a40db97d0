import Fabrication.Proofs.Step.Ceiling
import Fabrication.Proofs.Table
import Fabrication.Step.Reconcile
import Mathlib

/-!
# Steps up to their identifiers

The library names the steps and split groups it makes by fresh identifiers, handed out in the
order they are made, so two calculations that make the same steps in another order name them
differently. `Step.sansIds` forgets both names, a step's own and its split group's; all else
about the step, its place in a split group included, stays.

Reconciling reads no identifier, so it commutes with forgetting them (`reconcile_sansIds`), and
so does attaching durations. Splitting mints fresh identifiers, but what it makes, up to them,
depends neither on the identifiers of the steps it splits nor on the supply it starts from
(`Scheduler.schedule_alike`). `Planning.Alike` states that two computations agree in this way;
it is built along binds and traversals (`Alike.bind`, `Alike.mapM`).
-/

namespace Fabrication

section Sorting

variable {α β : Type}

theorem orderedInsert_map (f : α → β) (le : β → β → Bool) (x : α) (l : List α) :
    orderedInsert le (f x) (l.map f) = (orderedInsert (fun a b => le (f a) (f b)) x l).map f := by
  induction l with
  | nil => rfl
  | cons y ys ih => by_cases h : le (f y) (f x) <;> simp [orderedInsert, h, ih]

/-- Sorting images is sorting by the order the images give. -/
theorem sortBy_map (f : α → β) (le : β → β → Bool) (l : List α) :
    sortBy le (l.map f) = (sortBy (fun a b => le (f a) (f b)) l).map f := by
  suffices h : ∀ acc : List α,
      (l.map f).foldl (fun acc x => orderedInsert le x acc) (acc.map f) =
        (l.foldl (fun acc x => orderedInsert (fun a b => le (f a) (f b)) x acc) acc).map f by
    simpa [sortBy] using h []
  induction l with
  | nil => intro acc; rfl
  | cons x l ih =>
    intro acc
    rw [List.map_cons, List.foldl_cons, orderedInsert_map, ih, List.foldl_cons]

/-- Two permutations of one list sort alike, when the order is total and transitive and
tells no two of their elements apart both ways. -/
theorem sortBy_eq_of_perm {le : α → α → Bool} (htotal : ∀ a b, le a b ∨ le b a)
    (htrans : ∀ a b c, le a b → le b c → le a c) {l l' : List α} (h : l.Perm l')
    (hanti : ∀ a ∈ l, ∀ b ∈ l, le a b → le b a → a = b) : sortBy le l = sortBy le l' := by
  refine List.Perm.eq_of_pairwise (fun a b ha hb hab hba => ?_) (sortBy_pairwise htotal htrans l)
    (sortBy_pairwise htotal htrans l') ((sortBy_perm le l).trans (h.trans (sortBy_perm le l').symm))
  exact hanti a ((mem_sortBy le).1 ha) b (h.mem_iff.2 ((mem_sortBy le).1 hb)) hab hba

end Sorting

namespace Step

/-- A step with its identifier and its split group's identifier forgotten. -/
def sansIds (s : Step) : Step :=
  { s with id := .fresh 0, split := s.split.map fun i => { i with group := .fresh 0 } }

section Fields

variable (s : Step)

@[simp] theorem sansIds_recipe : s.sansIds.recipe = s.recipe := rfl
@[simp] theorem sansIds_activity : s.sansIds.activity = s.activity := rfl
@[simp] theorem sansIds_product : s.sansIds.product = s.product := rfl
@[simp] theorem sansIds_depth : s.sansIds.depth = s.depth := rfl
@[simp] theorem sansIds_quantity : s.sansIds.quantity = s.quantity := rfl
@[simp] theorem sansIds_runs : s.sansIds.runs = s.runs := rfl
@[simp] theorem sansIds_out : s.sansIds.out = s.out := rfl
@[simp] theorem sansIds_target : s.sansIds.target = s.target := rfl
@[simp] theorem sansIds_me : s.sansIds.me = s.me := rfl
@[simp] theorem sansIds_te : s.sansIds.te = s.te := rfl
@[simp] theorem sansIds_matBonus : s.sansIds.matBonus = s.matBonus := rfl
@[simp] theorem sansIds_timeBonus : s.sansIds.timeBonus = s.timeBonus := rfl
@[simp] theorem sansIds_bonusMissing : s.sansIds.bonusMissing = s.bonusMissing := rfl
@[simp] theorem sansIds_duration : s.sansIds.duration = s.duration := rfl
@[simp] theorem sansIds_purchased : s.sansIds.purchased = s.purchased := rfl
@[simp] theorem sansIds_key : s.sansIds.key = s.key := rfl
@[simp] theorem sansIds_isCopy : s.sansIds.isCopy = s.isCopy := rfl
@[simp] theorem sansIds_isSplit : s.sansIds.isSplit = s.isSplit := Option.isSome_map

end Fields

/-- Two steps agree but for identifiers when all their other fields agree. -/
theorem sansIds_eq_of {s s' : Step} (hkey : s.key = s'.key) (hproduct : s.product = s'.product)
    (hdepth : s.depth = s'.depth) (hquantity : s.quantity = s'.quantity) (hruns : s.runs = s'.runs)
    (hout : s.out = s'.out) (htarget : s.target = s'.target) (hme : s.me = s'.me)
    (hte : s.te = s'.te) (hbonus : s.bonus = s'.bonus) (hmissing : s.bonusMissing = s'.bonusMissing)
    (hduration : s.duration = s'.duration) (hsplit : s.split = s'.split)
    (hbought : s.purchased = s'.purchased) (hauto : s.autoMatch = s'.autoMatch) :
    s.sansIds = s'.sansIds := by
  cases s
  cases s'
  simp only [key, bonus, RecipeKey.mk.injEq, Bonus.mk.injEq] at hkey hbonus
  obtain ⟨rfl, rfl⟩ := hkey
  obtain ⟨rfl, rfl, rfl⟩ := hbonus
  dsimp only at *
  subst_vars
  rfl

end Step

namespace Planning

variable {α β γ δ : Type}

/-- Two computations that agree up to `v`, whichever supplies they start from: both fail, with
the same failure, or both succeed with results that `v` does not tell apart. -/
def Alike (v : α → β) (x y : Planning α) : Prop :=
  ∀ σ σ', (x.run σ).map (fun r => v r.1) = (y.run σ').map (fun r => v r.1)

theorem Alike.pure {v : α → β} {a b : α} (h : v a = v b) :
    Alike v (Pure.pure a) (Pure.pure b) := by
  intro σ σ'
  simp only [StateT.run_pure]
  exact congrArg Except.ok h

theorem Alike.bind {v : α → β} {w : γ → δ} {x y : Planning α} {f g : α → Planning γ}
    (hxy : Alike v x y) (hfg : ∀ a b, v a = v b → Alike w (f a) (g b)) :
    Alike w (x >>= f) (y >>= g) := by
  intro σ σ'
  have h := hxy σ σ'
  rw [StateT.run_bind, StateT.run_bind]
  -- the first parts fail alike or succeed alike; then the second parts run from any supplies
  rcases hx : x.run σ with e | ⟨a, ρ⟩ <;> rcases hy : y.run σ' with e' | ⟨b, ρ'⟩ <;>
    simp only [hx, hy, Except.map, Except.error.injEq, Except.ok.injEq, reduceCtorEq] at h
  · subst h
    rfl
  · exact hfg a b h ρ ρ'

theorem Alike.map {v : α → β} {w : γ → δ} {x y : Planning α} {f g : α → γ} (hxy : Alike v x y)
    (hfg : ∀ a b, v a = v b → w (f a) = w (g b)) : Alike w (f <$> x) (g <$> y) := by
  rw [map_eq_pure_bind, map_eq_pure_bind]
  exact hxy.bind fun a b h => Alike.pure (hfg a b h)

theorem alike_ofFault {v : α → β} {x y : Except Fault α} (h : x.map v = y.map v) :
    Alike v (ofFault x) (ofFault y) := by
  intro σ σ'
  cases x <;> cases y <;>
    simp only [Except.map, Except.error.injEq, Except.ok.injEq, reduceCtorEq] at h
  · subst h
    rfl
  · exact congrArg Except.ok h

theorem Alike.mapM {v : β → γ} {f g : α → Planning β} {l l' : List α}
    (h : List.Forall₂ (fun a b => Alike v (f a) (g b)) l l') :
    Alike (List.map v) (l.mapM f) (l'.mapM g) := by
  induction h with
  | nil => exact Alike.pure rfl
  | cons hab _ ih =>
    rw [List.mapM_cons, List.mapM_cons]
    exact hab.bind fun b b' hb => ih.bind fun bs bs' hbs => Alike.pure (by simp [hb, hbs])

/-- Two computations that, whichever supplies they start from, succeed together, with results
related by `R` when both do. Unlike `Alike`, their failures may differ. -/
def Agree (R : α → β → Prop) (x : Planning α) (y : Planning β) : Prop :=
  ∀ σ σ', ((∃ r, x.run σ = .ok r) ↔ ∃ r, y.run σ' = .ok r) ∧
    ∀ a ρ b ρ', x.run σ = .ok (a, ρ) → y.run σ' = .ok (b, ρ') → R a b

theorem exists_run_bind_ok_iff {x : Planning α} {f : α → Planning β} {σ : IdSupply} :
    (∃ r, (x >>= f).run σ = .ok r) ↔
      ∃ a ρ, x.run σ = .ok (a, ρ) ∧ ∃ r, (f a).run ρ = .ok r := by
  constructor
  · rintro ⟨⟨b, τ⟩, h⟩
    obtain ⟨a, ρ, hx, hf⟩ := run_bind_ok h
    exact ⟨a, ρ, hx, _, hf⟩
  · rintro ⟨a, ρ, hx, r, hf⟩
    exact ⟨r, (run_bind_of_ok hx).trans hf⟩

theorem exists_run_ofOutcome_ok_iff {x : Outcome α} {σ : IdSupply} :
    (∃ r, (ofOutcome x).run σ = .ok r) ↔ ∃ a, x = .ok a := by
  cases x <;> simp [ofOutcome, StateT.run, StateT.lift, bind, Except.bind, Pure.pure, Except.pure]

theorem Agree.bind {R : α → β → Prop} {S : γ → δ → Prop} {x : Planning α} {y : Planning β}
    {f : α → Planning γ} {g : β → Planning δ} (hxy : Agree R x y)
    (hfg : ∀ a b, R a b → Agree S (f a) (g b)) : Agree S (x >>= f) (y >>= g) := by
  intro σ σ'
  have hrel : ∀ a ρ b ρ', x.run σ = .ok (a, ρ) → y.run σ' = .ok (b, ρ') →
      Agree S (f a) (g b) := fun a ρ b ρ' hx hy => hfg a b ((hxy σ σ').2 a ρ b ρ' hx hy)
  refine ⟨?_, fun c τ d τ' hc hd => ?_⟩
  · rw [exists_run_bind_ok_iff, exists_run_bind_ok_iff]
    constructor
    · rintro ⟨a, ρ, hx, hf⟩
      obtain ⟨⟨b, ρ'⟩, hy⟩ := (hxy σ σ').1.1 ⟨_, hx⟩
      exact ⟨b, ρ', hy, ((hrel a ρ b ρ' hx hy) ρ ρ').1.1 hf⟩
    · rintro ⟨b, ρ', hy, hg⟩
      obtain ⟨⟨a, ρ⟩, hx⟩ := (hxy σ σ').1.2 ⟨_, hy⟩
      exact ⟨a, ρ, hx, ((hrel a ρ b ρ' hx hy) ρ ρ').1.2 hg⟩
  · obtain ⟨a, ρ, hx, hf⟩ := run_bind_ok hc
    obtain ⟨b, ρ', hy, hg⟩ := run_bind_ok hd
    exact ((hrel a ρ b ρ' hx hy) ρ ρ').2 c τ d τ' hf hg

theorem Agree.pure {R : α → β → Prop} {a : α} {b : β} (h : R a b) :
    Agree R (Pure.pure a) (Pure.pure b) := by
  intro σ σ'
  refine ⟨⟨fun _ => ⟨_, rfl⟩, fun _ => ⟨_, rfl⟩⟩, fun a' ρ b' ρ' ha hb => ?_⟩
  cases ha
  cases hb
  exact h

/-- Computations alike up to `v` agree on what `v` tells of their results. -/
theorem Alike.agree {v : α → β} {x y : Planning α} (h : Alike v x y) :
    Agree (fun a b => v a = v b) x y := by
  intro σ σ'
  have h := h σ σ'
  refine ⟨?_, fun a ρ b ρ' ha hb => ?_⟩
  · rcases hx : x.run σ with e | r <;> rcases hy : y.run σ' with e' | r' <;>
      simp [hx, hy, Except.map] at h ⊢
  · rw [ha, hb] at h
    simpa [Except.map] using h

theorem agree_ofOutcome {R : α → β → Prop} {x : Outcome α} {y : Outcome β}
    (hok : (∃ a, x = .ok a) ↔ ∃ b, y = .ok b) (hR : ∀ a b, x = .ok a → y = .ok b → R a b) :
    Agree R (ofOutcome x) (ofOutcome y) := by
  intro σ σ'
  rw [exists_run_ofOutcome_ok_iff, exists_run_ofOutcome_ok_iff]
  exact ⟨hok, fun a ρ b ρ' ha hb => hR a b (run_ofOutcome_ok ha).1 (run_ofOutcome_ok hb).1⟩

theorem agree_ofFault {R : α → β → Prop} {x : Except Fault α} {y : Except Fault β}
    (hok : (∃ a, x = .ok a) ↔ ∃ b, y = .ok b) (hR : ∀ a b, x = .ok a → y = .ok b → R a b) :
    Agree R (ofFault x) (ofFault y) := by
  have hlift : ∀ {γ : Type} (z : Except Fault γ),
      (∃ c, Outcome.ofFault z = .ok c) ↔ ∃ c, z = .ok c :=
    fun z => by cases z <;> simp [Outcome.ofFault, Except.mapError]
  refine agree_ofOutcome ((hlift x).trans (hok.trans (hlift y).symm)) fun a b ha hb => ?_
  exact hR a b (ok_of_ofFault ha) (ok_of_ofFault hb)

/-- A computation that reads no supply agrees with itself, on the one result it gives. -/
theorem agree_ofFault_self (x : Except Fault α) :
    Agree (fun a b => a = b ∧ x = .ok b) (ofFault x) (ofFault x) :=
  agree_ofFault Iff.rfl fun _ _ ha hb => ⟨Except.ok.inj (ha.symm.trans hb), hb⟩

/-- Outcomes with the same image under `v` agree on it. -/
theorem agree_ofOutcome_map {v : α → β} {x y : Outcome α} (h : x.map v = y.map v) :
    Agree (fun a b => v a = v b) (ofOutcome x) (ofOutcome y) := by
  refine agree_ofOutcome ?_ fun a b ha hb => ?_
  · cases x <;> cases y <;> simp [Except.map] at h ⊢
  · rw [ha, hb] at h
    simpa [Except.map] using h

end Planning

/-- A traversal of images whose every call gives the image of the call on the original. -/
theorem mapM_map_of_map {ε α β γ δ : Type} {f : γ → Except ε δ} {g : α → Except ε β}
    {h : α → γ} {h' : β → δ} (hfg : ∀ a, f (h a) = (g a).map h') (l : List α) :
    (l.map h).mapM f = (l.mapM g).map (List.map h') := by
  induction l with
  | nil => rfl
  | cons a l ih =>
    rw [List.map_cons, List.mapM_cons, List.mapM_cons, hfg a, ih]
    cases g a <;> cases l.mapM g <;> rfl

namespace Step

/-! ### Reconciling -/

theorem demandFor_sansIds (steps : List Step) (book : RecipeBook) (producer product : Nat) :
    demandFor (steps.map sansIds) book producer product = demandFor steps book producer product := by
  unfold demandFor
  rw [List.zipIdx_map, List.foldlM_map]
  rfl

theorem feeds_sansIds (conversions : List Step) (book : RecipeBook) :
    feeds (conversions.map sansIds) book = feeds conversions book := by
  simp only [feeds, List.zipIdx_map, List.flatMap_map, ← List.map_reverse, List.find?_map,
    Option.map_map]
  rfl

theorem checkCycles_sansIds (steps : List Step) (book : RecipeBook) :
    checkCycles (steps.map sansIds) book = checkCycles steps book := by
  simp only [checkCycles, List.filter_map, List.length_map, List.getElem?_map, Option.map_map]
  have hconv : ((fun s : Step => s.activity == .convert) ∘ sansIds) = fun s => s.activity == .convert :=
    rfl
  rw [hconv, feeds_sansIds]
  rfl

theorem conversionOrder_sansIds (steps : List Step) :
    conversionOrder (steps.map sansIds) = conversionOrder steps := by
  simp only [conversionOrder, List.zipIdx_map, List.filter_map, sortBy_map, List.map_map]
  rfl

theorem reconcileAt_sansIds (book : RecipeBook) (steps : List Step) (i : Nat) :
    reconcileAt book (steps.map sansIds) i = (reconcileAt book steps i).map (List.map sansIds) := by
  unfold reconcileAt
  rw [List.getElem?_map]
  cases steps[i]? with
  | none => rfl
  | some s =>
    simp only [Option.map_some, sansIds_product, sansIds_target, demandFor_sansIds]
    cases demandFor steps book i s.product with
    | error e => rfl
    | ok demand =>
      simp only [bind, Except.bind]
      by_cases hz : (demand == 0 && s.target == 0) = true
      · simp only [hz, if_true]
        rfl
      · simp only [hz, if_false, Bool.false_eq_true]
        cases Count.add? s.target demand with
        | error e => rfl
        | ok q =>
          simp only [Except.map, pure, Except.pure, List.map_set]
          rfl

theorem foldlM_reconcileAt_sansIds (book : RecipeBook) (order : List Nat) (steps : List Step) :
    order.foldlM (reconcileAt book) (steps.map sansIds) =
      (order.foldlM (reconcileAt book) steps).map (List.map sansIds) := by
  induction order generalizing steps with
  | nil => rfl
  | cons i order ih =>
    rw [List.foldlM_cons, List.foldlM_cons, reconcileAt_sansIds]
    cases reconcileAt book steps i with
    | error e => rfl
    | ok steps' => exact ih steps'

/-- Reconciling reads no identifier. -/
theorem reconcile_sansIds (steps : List Step) (book : RecipeBook) :
    reconcile (steps.map sansIds) book = (reconcile steps book).map (List.map sansIds) := by
  unfold reconcile
  rw [checkCycles_sansIds, conversionOrder_sansIds, foldlM_reconcileAt_sansIds]
  cases checkCycles steps book with
  | error e => rfl
  | ok u => cases (conversionOrder steps).foldlM (reconcileAt book) steps <;> rfl

/-! ### Splitting -/

/-- A split member, up to identifiers, is the split step with its share of the runs. -/
theorem sansIds_memberOf (st : Step) (g id : Ident) (i runs quantity : Nat) :
    sansIds (memberOf st g id i runs quantity) =
      { sansIds st with runs, quantity, target := if i = 0 then st.target else 0,
                        split := some ⟨.fresh 0, i, st.runs⟩ } := rfl

/-- The members split from two steps that differ only in identifiers differ only in
identifiers, whatever group they are put in. -/
theorem map_sansIds_membersFrom {st st' : Step} (h : st.sansIds = st'.sansIds) (a a' : Nat) :
    ∀ (k q : Nat) (ps : List Nat),
      (membersFrom st a k q ps).map sansIds = (membersFrom st' a' k q ps).map sansIds := by
  have hmember : ∀ g g' id id' i runs quantity,
      sansIds (memberOf st g id i runs quantity) = sansIds (memberOf st' g' id' i runs quantity) := by
    intro g g' id id' i runs quantity
    have htarget : st.target = st'.target := by simpa using congrArg Step.target h
    have hruns : st.runs = st'.runs := by simpa using congrArg Step.runs h
    rw [sansIds_memberOf, sansIds_memberOf, h, htarget, hruns]
  have hout : st.out = st'.out := by simpa using congrArg Step.out h
  intro k q ps
  induction ps generalizing k q with
  | nil => rfl
  | cons p ps ih =>
    cases ps with
    | nil =>
      simp only [membersFrom_singleton, List.map_singleton,
        hmember (.fresh a) (.fresh a') (st.memberId a k) (st'.memberId a' k)]
    | cons p' ps =>
      simp only [membersFrom_cons_cons, List.map_cons, hout,
        hmember (.fresh a) (.fresh a') (st.memberId a k) (st'.memberId a' k), ih]

end Step

namespace Scheduler

open Step Planning

theorem attachDurations_sansIds (sch : Scheduler) (steps : List Step) (book : RecipeBook) :
    sch.attachDurations (steps.map sansIds) book =
      (sch.attachDurations steps book).map (List.map sansIds) := by
  unfold attachDurations
  refine mapM_map_of_map (fun s => ?_) steps
  simp only [sansIds_key, sansIds_activity, sansIds_te, sansIds_timeBonus]
  cases book.get? s.key with
  | none => rfl
  | some r =>
    simp only [bind, Except.bind]
    cases durationPerRun r.baseDuration s.activity s.te s.timeBonus (sch.multiplierOf s.activity) <;>
      rfl

theorem splits_sansIds (ceiling : Nat) (s : Step) :
    splits ceiling [] s.sansIds = splits ceiling [] s := by
  simp only [splits, sansIds_duration, sansIds_isCopy, sansIds_isSplit, sansIds_runs]
  rfl

theorem splitStep_alike {s s' : Step} (h : s.sansIds = s'.sansIds) {parts : List Nat}
    (hparts : parts ≠ []) : Alike (List.map sansIds) (splitStep s parts) (splitStep s' parts) := by
  have hout : s.out = s'.out := by simpa using congrArg Step.out h
  have hq : s.quantity = s'.quantity := by simpa using congrArg Step.quantity h
  intro σ σ'
  rw [splitStep_run s hparts, splitStep_run s' hparts, hout]
  split
  · simp only [groupOf, Except.map, hq, map_sansIds_membersFrom h σ.next σ'.next]
  · rfl

theorem splitExcept_alike (sch : Scheduler) {steps steps' : List Step}
    (h : steps.map sansIds = steps'.map sansIds) :
    Alike (List.map sansIds) (sch.splitExcept steps []) (sch.splitExcept steps' []) := by
  unfold splitExcept
  split
  · exact Alike.pure h
  · rename_i ceiling _
    refine Alike.map (Alike.mapM ?_) fun a b (hab : a.map (List.map sansIds) = b.map (List.map sansIds)) =>
      by rw [List.map_flatten, List.map_flatten, hab]
    have hsame : List.Forall₂ (fun a b => sansIds a = sansIds b) steps steps' := by
      have heq : List.Forall₂ (· = ·) (steps.map sansIds) (steps'.map sansIds) := by
        rw [List.forall₂_eq_eq_eq]
        exact h
      exact List.forall₂_map_right_iff.1 (List.forall₂_map_left_iff.1 heq)
    refine hsame.imp fun a b hab => ?_
    have hsplits : splits ceiling [] b = splits ceiling [] a := by
      rw [← splits_sansIds, ← hab, splits_sansIds]
    rw [hsplits]
    cases splits ceiling [] a with
    | none => exact Alike.pure (by simp [hab])
    | some d =>
      have hruns : a.runs = b.runs := by simpa using congrArg Step.runs hab
      rw [← hruns]
      exact splitStep_alike hab (splitRuns_ne_nil _ _ _)

/-- Scheduling, up to identifiers, reads neither the identifiers of the steps nor the supply. -/
theorem schedule_alike (sch : Scheduler) (book : RecipeBook) {steps steps' : List Step}
    (h : steps.map sansIds = steps'.map sansIds) :
    Alike (List.map sansIds) (sch.schedule steps book) (sch.schedule steps' book) := by
  unfold schedule
  refine (alike_ofFault ?_).bind fun a b hab => sch.splitExcept_alike hab
  rw [← attachDurations_sansIds, ← attachDurations_sansIds, h]

end Scheduler

end Fabrication
