import Fabrication.Proofs.Step.Split
import Fabrication.Proofs.Step.Restore
import Fabrication.Proofs.Step.Merge
import Fabrication.Proofs.Step.Reconcile
import Fabrication.Proofs.Tree.Unfolding
import Fabrication.Proofs.Snapshot
import Fabrication.Calculation

/-!
# Calculated plans are well formed

Every node of a calculation's trees runs its material's producer, a build or conversion recipe
of the catalogue, at least one unit a run, in the runs its quantity needs (`unfolded_fits`).
Merging the nodes keeps the counts of each step fitting and draws every new step a fresh
identifier (`Step.Stocked`); a copy step has as many runs and units as its build step; no step
is split yet. Such steps are well formed (`Step.WellFormed.of_unsplit`). Reconciling changes
the counts of conversion steps only, and keeps their runs fitting their quantities; attaching
durations changes nothing that well-formedness reads; and splitting keeps it. So every plan a
calculation gives is well formed, its identifiers drawn before the supply's new mark
(`calculate_wellFormed`), and each of its steps makes a number of units a run that the
catalogue's recipes allow (`RunUnits`).
-/

namespace Fabrication

/-- The units a run can make with some recipes: one, or the quantity of an output of one of
them. -/
def RunUnits (recipes : List Recipe) (u : Nat) : Prop :=
  u = 1 ∨ ∃ r ∈ recipes, ∃ o ∈ r.outputs, u = o.quantity

/-- A recipe makes, a run, a number of units of any material that its recipes allow. -/
theorem runUnits_outputPerRun {recipes : List Recipe} {r : Recipe} (hr : r ∈ recipes) (m : Nat) :
    RunUnits recipes (Nat.max ((r.outputPerRun m).getD 1) 1) := by
  cases h : r.outputPerRun m with
  | none => exact .inl rfl
  | some q =>
    obtain ⟨o, ho, rfl⟩ := Option.map_eq_some_iff.1 h
    rcases Nat.eq_zero_or_pos o.quantity with h0 | hpos
    · exact .inl (by simp [h0])
    · exact .inr ⟨r, hr, o, List.mem_of_find?_eq_some ho, by simp [Nat.max_eq_max]; omega⟩

/-- A node whose counts fit: it runs no duplicate recipe, and makes at least one unit a run, a
number of units that `units` allows, in the runs its quantity needs. -/
def Expansion.Fits (units : Nat → Prop) (e : Expansion) : Prop :=
  e.activity ≠ .duplicate ∧ 0 < e.out ∧ units e.out ∧ e.runs = runsFor e.quantity e.out

/-- Every node of the unfolding of a loaded snapshot fits, with the units of the catalogue's
recipes. -/
theorem unfolded_fits {c : Catalog} {res : Resolver} {req : SnapshotRequest}
    {config : EngineConfig} {snap : Snapshot} (h : Snapshot.load c res req config = .ok snap)
    {excluded : List Nat} {x : Node} (hx : Node.Unfolded snap config excluded x) :
    x.head.Fits (RunUnits c.recipes) := by
  obtain ⟨R, hR, -, hact, hout, hruns, -⟩ := hx
  obtain ⟨hmem, hkind⟩ := Snapshot.producerOf_loaded h hR
  refine ⟨?_, ?_, ?_, hruns⟩
  · intro hdup
    rw [← hact, hdup] at hkind
    exact absurd hkind (by decide)
  · rw [hout, Nat.max_eq_max]
    exact Nat.lt_of_lt_of_le Nat.one_pos (Nat.le_max_right _ _)
  · rw [hout]
    exact runUnits_outputPerRun hmem _

namespace Step

variable {units : Nat → Prop}

/-- A step whose counts fit: it is no copy, and makes at least one unit a run, a number of
units that `units` allows, in the runs its quantity needs. -/
def Fits (units : Nat → Prop) (s : Step) : Prop :=
  s.isCopy = false ∧ 0 < s.out ∧ units s.out ∧ s.runs = runsFor s.quantity s.out

theorem fits_ofExpansion {e : Expansion} (he : e.Fits units) (id : Ident) :
    (ofExpansion id e).Fits units := by
  have hcopy : (ofExpansion id e).isCopy = (e.activity == .duplicate) := rfl
  exact ⟨by simpa [hcopy] using he.1, he.2.1, he.2.2.1, he.2.2.2⟩

/-- Taking a node in keeps a step's identifier and units a run, and works its runs out from its
new quantity. -/
theorem absorb_keeps {m m' : Merging} {e : Expansion} (h : absorb m e = .ok m') :
    m'.step.id = m.step.id ∧ m'.step.activity = m.step.activity ∧ m'.step.out = m.step.out ∧
      m'.step.runs = runsFor m'.step.quantity m'.step.out := by
  unfold absorb at h
  obtain ⟨q, -, h⟩ := ok_of_bind h
  dsimp only at h
  split at h <;> cases h <;> exact ⟨rfl, rfl, rfl, rfl⟩

theorem absorb_fits {m m' : Merging} {e : Expansion} (hm : m.step.Fits units)
    (h : absorb m e = .ok m') : m'.step.Fits units := by
  obtain ⟨-, hact, hout, hruns⟩ := absorb_keeps h
  refine ⟨?_, hout ▸ hm.2.1, hout ▸ hm.2.2.1, hruns⟩
  simpa [isCopy, hact] using hm.1

/-- Merged steps so far: their counts fit, and their identifiers are distinct, fresh, and drawn
between `a` and the supply's mark `n`. -/
structure Stocked (units : Nat → Prop) (a n : Nat) (steps : List Step) : Prop where
  fits : ∀ s ∈ steps, s.Fits units
  ids : (steps.map (·.id)).Nodup
  drawn : ∀ s ∈ steps, ∃ k, s.id = .fresh k ∧ a ≤ k ∧ k < n
  start : a ≤ n

/-- Steps that keep their identifiers and fitting counts keep being stocked. -/
theorem Stocked.of_forall₂ {steps steps' : List Step} {a n : Nat} (hs : Stocked units a n steps)
    (hrel : List.Forall₂ (fun s s' => (s.Fits units → s'.Fits units) ∧ s.id = s'.id)
      steps steps') :
    Stocked units a n steps' := by
  have hids : steps.map (·.id) = steps'.map (·.id) :=
    map_eq_of_forall₂ (hrel.imp fun _ _ h => h.2)
  refine ⟨fun s' hs' => ?_, hids ▸ hs.ids, fun s' hs' => ?_, hs.start⟩
  · obtain ⟨s, hs₀, hfit, -⟩ := exists_of_forall₂_right hrel hs'
    exact hfit (hs.fits s hs₀)
  · obtain ⟨s, hs₀, -, hid⟩ := exists_of_forall₂_right hrel hs'
    rw [← hid]
    exact hs.drawn s hs₀

/-- A new step with fitting counts and the supply's next identifier keeps steps stocked. -/
theorem Stocked.append {steps : List Step} {a n : Nat} {s : Step} (hs : Stocked units a n steps)
    (hfit : s.Fits units) (hid : s.id = .fresh n) : Stocked units a (n + 1) (steps ++ [s]) := by
  refine ⟨fun t ht => ?_, ?_, fun t ht => ?_, Nat.le_succ_of_le hs.start⟩
  · rcases List.mem_append.1 ht with ht | ht
    · exact hs.fits t ht
    · rw [List.mem_singleton.1 ht]
      exact hfit
  · rw [List.map_append, List.nodup_append]
    refine ⟨hs.ids, List.nodup_singleton _, fun x hx y hy hxy => ?_⟩
    obtain ⟨t, ht, rfl⟩ := List.mem_map.1 hx
    rw [List.map_singleton, List.mem_singleton] at hy
    obtain ⟨k, hk, -, hlt⟩ := hs.drawn t ht
    -- every earlier identifier is drawn below the new one
    have hkn : Ident.fresh k = .fresh n := by rw [← hk, hxy, hy, hid]
    injection hkn with hkn
    omega
  · rcases List.mem_append.1 ht with ht | ht
    · obtain ⟨k, hk, hak, hkn⟩ := hs.drawn t ht
      exact ⟨k, hk, hak, Nat.lt_succ_of_lt hkn⟩
    · rw [List.mem_singleton.1 ht]
      exact ⟨n, hid, hs.start, Nat.lt_succ_self n⟩

variable {σ τ : IdSupply}

theorem mergeNode_stocked {acc acc' : List Merging} {e : Expansion} {a : Nat}
    (hs : Stocked units a σ.next (acc.map (·.step))) (he : e.Fits units)
    (h : (mergeNode acc e).run σ = .ok (acc', τ)) : Stocked units a τ.next (acc'.map (·.step)) := by
  unfold mergeNode at h
  dsimp only at h
  split at h
  · have hkeep := Planning.mapM_keeps h fun m m' ρ ρ' _ hm => by
      split at hm
      · exact (Planning.run_ofFault_ok hm).2
      · cases hm
        rfl
    have hrel := Planning.mapM_forall₂ (fun m m' : Merging =>
        (m.step.Fits units → m'.step.Fits units) ∧ m.step.id = m'.step.id) h
      (fun m m' ρ ρ' _ hm => by
        split at hm
        · obtain ⟨hm, -⟩ := Planning.run_ofFault_ok hm
          exact ⟨fun hf => absorb_fits hf hm, (absorb_keeps hm).1.symm⟩
        · cases hm
          exact ⟨fun hf => hf, rfl⟩)
    rw [hkeep]
    exact hs.of_forall₂ (List.forall₂_map_left_iff.2 (List.forall₂_map_right_iff.2 hrel))
  · obtain ⟨id, ρ, hid, h⟩ := Planning.run_bind_ok h
    rw [Planning.run_mint] at hid
    cases hid
    cases h
    rw [List.map_append]
    exact hs.append (fits_ofExpansion he _) rfl

theorem mergeTree_stocked {acc acc' : List Merging} {root : Node} {a : Nat}
    (hs : Stocked units a σ.next (acc.map (·.step))) (he : ∀ x ∈ root.nodes, x.head.Fits units)
    (h : (mergeTree acc root).run σ = .ok (acc', τ)) : Stocked units a τ.next (acc'.map (·.step)) := by
  unfold mergeTree at h
  obtain ⟨acc₁, ρ, hfold, h⟩ := Planning.run_bind_ok h
  have h₁ : Stocked units a ρ.next (acc₁.map (·.step)) :=
    Planning.foldlM_marked (fun acc n => Stocked units a n (acc.map (·.step))) hfold hs
      fun _ x _ _ _ hx hacc hstep => mergeNode_stocked hacc (he x hx) hstep
  have hkeep := Planning.mapM_keeps h fun m m' ρ ρ' _ hm => by
    split at hm
    · obtain ⟨t, ρ₁, ht, hm⟩ := Planning.run_bind_ok hm
      cases hm
      exact (Planning.run_ofFault_ok ht).2
    · cases hm
      rfl
  have hrel := Planning.mapM_forall₂ (fun m m' : Merging =>
      (m.step.Fits units → m'.step.Fits units) ∧ m.step.id = m'.step.id) h
    (fun m m' ρ ρ' _ hm => by
      split at hm
      · obtain ⟨t, ρ₁, -, hm⟩ := Planning.run_bind_ok hm
        cases hm
        exact ⟨fun hf => hf, rfl⟩
      · cases hm
        exact ⟨fun hf => hf, rfl⟩)
  rw [hkeep]
  exact h₁.of_forall₂ (List.forall₂_map_left_iff.2 (List.forall₂_map_right_iff.2 hrel))

/-- The copy steps of some build steps: each keys the duplicate recipe of its build step, the
copies take the supply's next identifiers in order, and each copy is its build step's copy. -/
theorem copies_spec {builds copies : List Step}
    (h : (builds.mapM fun s => do pure (copyOf (← Planning.mint) s)).run σ = .ok (copies, τ)) :
    copies.map key = builds.map (fun s => ⟨s.recipe, .duplicate⟩) ∧
      (copies.map (·.id)).Nodup ∧ σ.next ≤ τ.next ∧
      ∀ c ∈ copies, ∃ s ∈ builds, c = copyOf c.id s ∧
        ∃ k, c.id = .fresh k ∧ σ.next ≤ k ∧ k < τ.next := by
  obtain ⟨w, hin, hout, hle, hw, hp⟩ := Planning.mapM_calls
    (fun s c start stop => c = copyOf (.fresh start) s ∧ stop = start + 1) h
    fun s c ρ ρ' _ hc => by
      obtain ⟨id, ρ₁, hid, hc⟩ := Planning.run_bind_ok hc
      rw [Planning.run_mint] at hid
      cases hid
      cases hc
      exact ⟨Nat.le_succ _, rfl, rfl⟩
  have hcopies : copies = w.map fun e => copyOf (.fresh e.start) e.input := by
    rw [← hout]
    exact List.map_congr_left fun e he => (hw e he).1.1
  subst hin hcopies
  refine ⟨by simp [key, copyOf], ?_, hle, ?_⟩
  · rw [List.map_map]
    refine List.pairwise_map.2 (hp.imp_of_mem fun {e e'} he he' hee' heq => ?_)
    have h1 := (hw e he).1.2
    injection heq with heq
    omega
  · intro c hc
    obtain ⟨e, he, rfl⟩ := List.mem_map.1 hc
    obtain ⟨⟨-, hstop⟩, hσ, -, hτ⟩ := hw e he
    exact ⟨e.input, List.mem_map_of_mem he, rfl, e.start, rfl, hσ, by omega⟩

/-- Steps none of which is split are well formed when their keys and their identifiers are
distinct, the runs of each step but a copy fit its quantity, and each copy follows its build
step. -/
theorem WellFormed.of_unsplit {steps : List Step} (hsplit : ∀ s ∈ steps, s.split = none)
    (hkeys : (steps.map key).Nodup) (hids : (steps.map (·.id)).Nodup)
    (hruns : ∀ s ∈ steps, s.isCopy = false → 0 < s.out ∧ s.runs = runsFor s.quantity s.out)
    (hcopies : ∀ c ∈ steps, c.isCopy = true → (∃ b ∈ steps, b.key = ⟨c.recipe, .build⟩) →
      c.runs = c.quantity ∧ c.runs = runsOfKey steps ⟨c.recipe, .build⟩) :
    WellFormed steps := by
  have hgroup : ∀ s ∈ steps, s.group = none := fun s hs => by simp [group, hsplit s hs]
  have hmembers : ∀ g, membersOf steps g = [] := fun g =>
    List.filter_eq_nil_iff.2 fun s hs => by simp [hgroup s hs]
  refine ⟨⟨hruns, fun s hs t ht hsome _ => ?_, fun g => ?_, fun s hs t ht hk => ?_, hids⟩,
    fun s hs info hinfo => ?_, hcopies⟩
  · rw [hgroup s hs] at hsome
    cases hsome
  · rw [hmembers g]
    exact List.Perm.refl _
  · obtain rfl := List.inj_on_of_nodup_map hkeys hs ht hk
    exact ⟨rfl, fun _ => rfl⟩
  · rw [hsplit s hs] at hinfo
    cases hinfo

theorem runsOfKey_append (l l' : List Step) (k : RecipeKey) :
    runsOfKey (l ++ l') k = runsOfKey l k + runsOfKey l' k := by
  simp [runsOfKey, List.filter_append]

theorem runsOfKey_eq_zero {l : List Step} {k : RecipeKey} (h : ∀ s ∈ l, s.key ≠ k) :
    runsOfKey l k = 0 := by
  have hnone : l.filter (·.key == k) = [] :=
    List.filter_eq_nil_iff.2 fun s hs hk => h s hs (beq_iff_eq.1 hk)
  simp [runsOfKey, hnone]

/-- With distinct keys, the runs of a step's key are its own. -/
theorem runsOfKey_of_nodup {l : List Step} (hk : (l.map key).Nodup) {s : Step} (hs : s ∈ l) :
    runsOfKey l s.key = s.runs := by
  induction l with
  | nil => cases hs
  | cons x l ih =>
    rw [List.map_cons, List.nodup_cons] at hk
    have hcons : runsOfKey (x :: l) s.key = runsOfKey [x] s.key + runsOfKey l s.key :=
      runsOfKey_append [x] l s.key
    rcases List.mem_cons.1 hs with rfl | hs
    · have hzero : runsOfKey l s.key = 0 :=
        runsOfKey_eq_zero fun t ht htk => hk.1 (htk ▸ List.mem_map_of_mem ht)
      rw [hcons, hzero]
      simp [runsOfKey]
    · have hne : x.key ≠ s.key := fun h => hk.1 (h ▸ List.mem_map_of_mem hs)
      rw [hcons, runsOfKey_eq_zero (by simpa using hne), ih hk.2 hs, Nat.zero_add]

/-- Merged steps with the copies of some of their build steps: well formed, and drawn before the
supply's mark, when the merged steps are stocked and the copies drawn after them. -/
theorem wellFormed_append_copies {merged builds copies : List Step} {a n n' : Nat}
    (hkeys : (merged.map key).Nodup) (hplain : ∀ s ∈ merged, s.split = none)
    (hs : Stocked units a n merged) (hsub : builds.Sublist merged)
    (hbuild : ∀ s ∈ builds, s.activity = .build)
    (hckeys : copies.map key = builds.map fun s => ⟨s.recipe, .duplicate⟩)
    (hcids : (copies.map (·.id)).Nodup) (hnn : n ≤ n')
    (hcopies : ∀ c ∈ copies, ∃ s ∈ builds, c = copyOf c.id s ∧
      ∃ k, c.id = .fresh k ∧ n ≤ k ∧ k < n') :
    WellFormed (merged ++ copies) ∧ Minted n' (merged ++ copies) := by
  have hcopy : ∀ c ∈ copies, c.isCopy = true ∧ c.split = none := by
    intro c hc
    obtain ⟨s, -, hcs, -⟩ := hcopies c hc
    rw [hcs]
    exact ⟨rfl, rfl⟩
  have hsplit : ∀ s ∈ merged ++ copies, s.split = none := by
    intro s hs
    rcases List.mem_append.1 hs with hs | hs
    · exact hplain s hs
    · exact (hcopy s hs).2
  have hapart : ∀ s ∈ merged, ∀ c ∈ copies, s.key ≠ c.key := by
    intro s hs' c hc hsc
    have h := isCopy_of_key hsc
    rw [(hs.fits s hs').1, (hcopy c hc).1] at h
    cases h
  have hbkeys : (builds.map key).Nodup := (hsub.map key).nodup hkeys
  -- a copy keys the duplicate recipe of its build step, and build steps have distinct recipes
  have hcopykeys : (copies.map key).Nodup := by
    rw [hckeys]
    refine List.Nodup.map_on (fun x hx y hy hxy => ?_) (List.Nodup.of_map key hbkeys)
    have hr : x.recipe = y.recipe := congrArg RecipeKey.id hxy
    refine List.inj_on_of_nodup_map hbkeys hx hy ?_
    simp [key, hr, hbuild x hx, hbuild y hy]
  have hbefore : ∀ s ∈ merged ++ copies, ∃ k, s.id = .fresh k ∧ k < n' := by
    intro s hmem
    rcases List.mem_append.1 hmem with hm | hc
    · obtain ⟨k, hk, -, hkn⟩ := hs.drawn s hm
      exact ⟨k, hk, Nat.lt_of_lt_of_le hkn hnn⟩
    · obtain ⟨-, -, -, k, hk, -, hkn⟩ := hcopies s hc
      exact ⟨k, hk, hkn⟩
  have hgroup : ∀ s ∈ merged ++ copies, s.group = none := fun s hmem => by
    simp [group, hsplit s hmem]
  refine ⟨WellFormed.of_unsplit hsplit ?_ ?_ ?_ ?_, ⟨fun s hmem => ?_, fun s _ t ht => ?_,
    fun s hmem _ => hsplit s hmem⟩⟩
  · rw [List.map_append, List.nodup_append]
    refine ⟨hkeys, hcopykeys, fun x hx y hy hxy => ?_⟩
    obtain ⟨s, hs', rfl⟩ := List.mem_map.1 hx
    obtain ⟨c, hc, rfl⟩ := List.mem_map.1 hy
    exact hapart s hs' c hc hxy
  · rw [List.map_append, List.nodup_append]
    refine ⟨hs.ids, hcids, fun x hx y hy hxy => ?_⟩
    obtain ⟨s, hs', rfl⟩ := List.mem_map.1 hx
    obtain ⟨c, hc, rfl⟩ := List.mem_map.1 hy
    obtain ⟨k, hk, -, hkn⟩ := hs.drawn s hs'
    obtain ⟨-, -, -, k', hk', hnk', -⟩ := hcopies c hc
    have hkk : Ident.fresh k = .fresh k' := by rw [← hk, ← hk', hxy]
    injection hkk with hkk
    omega
  · intro s hmem hs'
    have hfit := hs.fits s (by
      rcases List.mem_append.1 hmem with hm | hc
      · exact hm
      · rw [(hcopy s hc).1] at hs'
        cases hs')
    exact ⟨hfit.2.1, hfit.2.2.2⟩
  · intro c hmem hc' _
    have hc : c ∈ copies := by
      rcases List.mem_append.1 hmem with hm | hc
      · rw [(hs.fits c hm).1] at hc'
        cases hc'
      · exact hc
    obtain ⟨s, hsb, hcs, -⟩ := hcopies c hc
    have hsm := hsub.subset hsb
    have hkey : (⟨c.recipe, .build⟩ : RecipeKey) = s.key := by
      rw [hcs]
      simp [key, copyOf, hbuild s hsb]
    have hzero : runsOfKey copies s.key = 0 :=
      runsOfKey_eq_zero fun t ht hts => hapart s hsm t ht hts.symm
    have hruns : c.runs = s.runs := by rw [hcs]; rfl
    have hq : c.quantity = s.runs := by rw [hcs]; rfl
    rw [hkey, runsOfKey_append, runsOfKey_of_nodup hkeys hsm, hzero, Nat.add_zero, hruns, hq]
    exact ⟨rfl, rfl⟩
  · obtain ⟨k, hk, hkn⟩ := hbefore s hmem
    refine ⟨by rw [hk]; exact hkn, fun g hg => ?_⟩
    rw [hgroup s hmem] at hg
    cases hg
  · rw [hgroup t ht]
    exact fun h => by cases h

/-- The steps of a forest whose nodes fit are well formed and drawn before the supply's new
mark; none is split, and each makes a number of units a run that `units` allows. -/
theorem ofForest_wellFormed {forest : List Node} {snap : Snapshot} {config : EngineConfig}
    {steps : List Step} (h1 : units 1) (hfits : ∀ t ∈ forest, ∀ x ∈ t.nodes, x.head.Fits units)
    (h : (ofForest forest snap config).run σ = .ok (steps, τ)) :
    WellFormed steps ∧ Minted τ.next steps ∧ σ.next ≤ τ.next ∧
      ∀ s ∈ steps, s.split = none ∧ units s.out := by
  unfold ofForest at h
  obtain ⟨acc, ρ, hfold, h⟩ := Planning.run_bind_ok h
  have hm := foldlM_mergeTree_merged forest merged_nil (by simp) hfold
  have hs : Stocked units σ.next ρ.next (acc.map (·.step)) :=
    Planning.foldlM_marked (fun (acc : List Merging) n => Stocked units σ.next n (acc.map (·.step)))
      hfold ⟨by simp, List.nodup_nil, by simp, Nat.le_refl _⟩
      fun _ t _ _ _ ht hacc hstep => mergeTree_stocked hacc (hfits t ht) hstep
  obtain ⟨builds, copies, hsub, hbuild, hckeys, hcids, hle, hcopies, rfl⟩ :
      ∃ builds copies : List Step, builds.Sublist (acc.map (·.step)) ∧
        (∀ s ∈ builds, s.activity = .build) ∧
        copies.map key = builds.map (fun s => ⟨s.recipe, .duplicate⟩) ∧
        (copies.map (·.id)).Nodup ∧ ρ.next ≤ τ.next ∧
        (∀ c ∈ copies, ∃ s ∈ builds, c = copyOf c.id s ∧
          ∃ k, c.id = .fresh k ∧ ρ.next ≤ k ∧ k < τ.next) ∧
        steps = sortBy before (acc.map (·.step) ++ copies) := by
    dsimp only at h
    split at h
    · obtain ⟨copies, ρ', hcopies, h⟩ := Planning.run_bind_ok h
      cases h
      obtain ⟨hckeys, hcids, hle, hcs⟩ := copies_spec hcopies
      refine ⟨_, copies, List.filter_sublist, fun s hs => ?_, hckeys, hcids, hle, hcs, rfl⟩
      have hb := (List.mem_filter.1 hs).2
      simp only [Bool.and_eq_true, beq_iff_eq] at hb
      exact hb.1
    · cases h
      exact ⟨[], [], List.nil_sublist _, by simp, rfl, List.nodup_nil, Nat.le_refl _, by simp, rfl⟩
  obtain ⟨hw, hmint⟩ := wellFormed_append_copies hm.keys (fun s hs' => (hm.plain s hs').1) hs
    hsub hbuild hckeys hcids hle hcopies
  have hperm := (sortBy_perm before (acc.map (·.step) ++ copies)).symm
  refine ⟨hw.perm hperm, hmint.perm hperm, Nat.le_trans hs.start hle, fun s hs' => ?_⟩
  rcases List.mem_append.1 (hperm.symm.mem_iff.1 hs') with hmerged | hcopy
  · exact ⟨(hm.plain s hmerged).1, (hs.fits s hmerged).2.2.1⟩
  · obtain ⟨b, -, hcs, -⟩ := hcopies s hcopy
    rw [hcs]
    exact ⟨rfl, h1⟩

section Reconcile

/-- What reconciling may do to a step: keep it, or give a conversion step another quantity and
the runs that quantity needs, keeping its shape. -/
def Reconciled (s s' : Step) : Prop :=
  shape s' = shape s ∧ (s' = s ∨ s.activity = .convert ∧ s'.runs = runsFor s'.quantity s'.out)

theorem Reconciled.refl (s : Step) : Reconciled s s := ⟨rfl, .inl rfl⟩

theorem Reconciled.trans {s s' s'' : Step} (h : Reconciled s s') (h' : Reconciled s' s'') :
    Reconciled s s'' := by
  refine ⟨h'.1.trans h.1, ?_⟩
  rcases h'.2 with rfl | ⟨hconv, hruns⟩
  · exact h.2
  · have hact : s'.activity = s.activity := shape_congr h.1 activity fun _ => rfl
    exact .inr ⟨hact ▸ hconv, hruns⟩

/-- Setting one position to a value related to the old one relates the lists. -/
theorem forall₂_set {α : Type} {R : α → α → Prop} {l : List α} {i : Nat} {a b : α}
    (hrefl : ∀ x ∈ l, R x x) (ha : l[i]? = some a) (hab : R a b) :
    List.Forall₂ R l (l.set i b) := by
  induction l generalizing i with
  | nil => cases ha
  | cons x l ih =>
    have hrest : ∀ y ∈ l, R y y := fun y hy => hrefl y (List.mem_cons_of_mem x hy)
    cases i with
    | zero =>
      cases ha
      exact .cons hab (List.forall₂_same.2 hrest)
    | succ i => exact .cons (hrefl x List.mem_cons_self) (ih hrest ha)

/-- Lists related position by position by a transitive relation, twice over, are related. -/
theorem forall₂_trans {α : Type} {R : α → α → Prop} (htrans : ∀ {a b c}, R a b → R b c → R a c)
    {l₁ l₂ l₃ : List α} (h₁ : List.Forall₂ R l₁ l₂) (h₂ : List.Forall₂ R l₂ l₃) :
    List.Forall₂ R l₁ l₃ := by
  induction h₁ generalizing l₃ with
  | nil => exact h₂
  | cons hab _ ih =>
    cases h₂ with
    | cons hbc h₂ => exact .cons (htrans hab hbc) (ih h₂)

theorem reconcileAt_reconciled {book : RecipeBook} {steps steps' : List Step} {i : Nat}
    (hconv : ∀ s, steps[i]? = some s → s.activity = .convert)
    (h : reconcileAt book steps i = .ok steps') : List.Forall₂ Reconciled steps steps' := by
  have hsame : List.Forall₂ Reconciled steps steps :=
    List.forall₂_same.2 fun s _ => Reconciled.refl s
  unfold reconcileAt at h
  split at h
  · cases h
    exact hsame
  · rename_i s hs
    obtain ⟨D, -, h⟩ := ok_of_bind h
    split at h
    · cases h
      exact hsame
    · obtain ⟨q, -, h⟩ := ok_of_bind h
      cases h
      exact forall₂_set (fun t _ => Reconciled.refl t) hs ⟨rfl, .inr ⟨hconv s hs, rfl⟩⟩

theorem foldlM_reconcileAt_reconciled {book : RecipeBook} {l : List Nat}
    {steps₀ steps steps' : List Step}
    (hconv : ∀ i ∈ l, ∀ s, steps₀[i]? = some s → s.activity = .convert)
    (hrel : List.Forall₂ Reconciled steps₀ steps)
    (h : l.foldlM (reconcileAt book) steps = .ok steps') : List.Forall₂ Reconciled steps₀ steps' := by
  induction l generalizing steps with
  | nil =>
    cases h
    exact hrel
  | cons i l ih =>
    rw [List.foldlM_cons] at h
    obtain ⟨mid, hmid, h⟩ := ok_of_bind h
    have hmap : steps₀.map shape = steps.map shape := map_eq_of_forall₂ (hrel.imp fun _ _ hr => hr.1.symm)
    have hshape : ∀ j : Nat, steps[j]?.map shape = steps₀[j]?.map shape := fun j => by
      rw [← List.getElem?_map, ← List.getElem?_map, hmap]
    have hi : ∀ s, steps[i]? = some s → s.activity = .convert := fun s hs => by
      obtain ⟨s₀, hs₀, hsh⟩ := exists_of_shape hshape hs
      rw [← shape_congr hsh activity fun _ => rfl]
      exact hconv i List.mem_cons_self s₀ hs₀
    refine ih (fun j hj => hconv j (List.mem_cons_of_mem i hj)) ?_ h
    exact forall₂_trans (R := Reconciled) Reconciled.trans hrel (reconcileAt_reconciled hi hmid)

/-- Reconciling relates each step to the one it becomes. -/
theorem reconcile_reconciled {steps steps' : List Step} {book : RecipeBook}
    (h : reconcile steps book = .ok steps') : List.Forall₂ Reconciled steps steps' := by
  unfold reconcile at h
  obtain ⟨-, -, h⟩ := ok_of_bind h
  refine foldlM_reconcileAt_reconciled (fun i hi s hs => ?_)
    (List.forall₂_same.2 fun s _ => Reconciled.refl s) (ok_of_ofFault h)
  obtain ⟨c, hc, hconv⟩ := ((conversionOrder_spec steps).2.1 i).1 hi
  rw [hs] at hc
  cases hc
  exact hconv

/-- Reconciling keeps the runs of every key but a conversion's. -/
theorem runsOfKey_reconciled {steps steps' : List Step} (hrel : List.Forall₂ Reconciled steps steps')
    {k : RecipeKey} (hk : k.activity ≠ .convert) : runsOfKey steps' k = runsOfKey steps k := by
  induction hrel with
  | nil => rfl
  | @cons s s' l l' hss' _ ih =>
    rw [show s' :: l' = [s'] ++ l' from rfl, show s :: l = [s] ++ l from rfl, runsOfKey_append,
      runsOfKey_append, ih]
    have hkey : s'.key = s.key := shape_congr hss'.1 key fun _ => rfl
    by_cases hsk : s.key = k
    · rcases hss'.2 with rfl | ⟨hconv, -⟩
      · rfl
      · exact absurd (hsk ▸ hconv : k.activity = .convert) hk
    · have h' : runsOfKey [s'] k = 0 := runsOfKey_eq_zero (by simpa [hkey] using hsk)
      have h : runsOfKey [s] k = 0 := runsOfKey_eq_zero (by simpa using hsk)
      rw [h', h]

/-- Reconciled well-formed steps that are not split are well formed and not split. -/
theorem WellFormed.reconciled {steps steps' : List Step} (hw : WellFormed steps)
    (hsplit : ∀ s ∈ steps, s.split = none) (hrel : List.Forall₂ Reconciled steps steps') :
    WellFormed steps' ∧ ∀ s ∈ steps', s.split = none := by
  have hsc : steps'.map sansCounts = steps.map sansCounts :=
    (map_eq_of_forall₂ (hrel.imp fun (a b : Step) (hr : Reconciled a b) =>
      (shape_congr hr.1 sansCounts fun _ => rfl).symm)).symm
  have hfit : ∀ s' ∈ steps', s'.isCopy = false → s'.runs = runsFor s'.quantity s'.out := by
    intro s' hs' hcopy
    obtain ⟨s, hs, hsh, hkeep⟩ := exists_of_forall₂_right hrel hs'
    rcases hkeep with rfl | ⟨-, hruns⟩
    · exact (hw.runs s' hs hcopy).2
    · exact hruns
  have hsplit' : ∀ s' ∈ steps', s'.split = none := by
    intro s' hs'
    obtain ⟨s, hs, hsh, -⟩ := exists_of_forall₂_right hrel hs'
    rw [shape_congr hsh split fun _ => rfl]
    exact hsplit s hs
  have hg := Grouped.of_frame hw.toGrouped hsc fun p hp hcopy => hfit _ (stepAt_mem hp) hcopy
  refine ⟨⟨hg, fun s hs info hinfo => ?_, fun c' hc' hcopy hb => ?_⟩, hsplit'⟩
  · rw [hsplit' s hs] at hinfo
    cases hinfo
  · obtain ⟨c, hc, hsh, hkeep⟩ := exists_of_forall₂_right hrel hc'
    have hact : c'.activity = c.activity := shape_congr hsh activity fun _ => rfl
    have hdup : c'.activity = .duplicate := by simpa [isCopy] using hcopy
    obtain rfl : c' = c := by
      rcases hkeep with h | ⟨hconv, -⟩
      · exact h
      · rw [hact, hconv] at hdup
        cases hdup
    obtain ⟨b', hb', hbk⟩ := hb
    obtain ⟨b, hb, hbsh, -⟩ := exists_of_forall₂_right hrel hb'
    rw [runsOfKey_reconciled hrel (by intro h; cases h)]
    exact hw.copies c' hc hcopy ⟨b, hb, (shape_congr hbsh key fun _ => rfl).symm.trans hbk⟩

end Reconcile

section Schedule

variable {sch : Scheduler} {steps steps' : List Step} {book : RecipeBook}

/-- Attaching durations changes nothing that well-formedness reads. -/
theorem attachDurations_views (h : sch.attachDurations steps book = .ok steps') :
    steps'.map wfView = steps.map wfView :=
  (map_eq_of_forall₂ ((attachDurations_forall₂ h).imp fun _ _ hs => by rw [hs]; rfl)).symm

/-- Scheduling well-formed steps made before the supply's mark gives well-formed steps made
before its new mark, each sharing what split groups share with a step it came from. -/
theorem schedule_wellFormed (hw : WellFormed steps) (hm : Minted σ.next steps)
    (h : (sch.schedule steps book).run σ = .ok (steps', τ)) :
    WellFormed steps' ∧ Minted τ.next steps' ∧ σ.next ≤ τ.next ∧
      ∀ y ∈ steps', ∃ s ∈ steps, y.groupView = s.groupView := by
  unfold Scheduler.schedule at h
  obtain ⟨timed, ρ, htimed, hsplit⟩ := Planning.run_bind_ok h
  obtain ⟨htimed', rfl⟩ := Planning.run_ofFault_ok htimed
  have hviews := attachDurations_views htimed'
  have hw' := hw.of_views hviews
  have hm' := hm.of_mintViews (mintViews_of_views hviews)
  obtain ⟨hw'', hm'', hle⟩ := splitExcept_wellFormed hw' hm' hsplit
  refine ⟨hw'', hm'', hle, fun y hy => ?_⟩
  obtain ⟨t, ht, hyt⟩ := splitExcept_groupView hw'.toGrouped hsplit y hy
  obtain ⟨s, hs, hv⟩ := exists_of_views hviews ht
  exact ⟨s, hs, hyt.trans (wfView_congr hv groupView fun _ => rfl).symm⟩

end Schedule

end Step

/-- A calculated plan is well formed, drawn from the supply before its new mark, and each of its
steps makes a number of units a run that the catalogue's recipes allow. -/
theorem calculate_wellFormed {config : EngineConfig} {table : SkillTable} {catalog : Catalog}
    {res : Resolver} {world : World} {req : PlanRequest} {σ τ : IdSupply} {c : Calculation}
    (h : (calculate config table catalog res world req).run σ = .ok (c, τ)) :
    Step.WellFormed c.steps ∧ Step.Minted τ.next c.steps ∧ σ.next ≤ τ.next ∧
      ∀ s ∈ c.steps, RunUnits catalog.recipes s.out := by
  unfold calculate at h
  obtain ⟨_, σ₁, hvalid, h₁⟩ := Planning.run_bind_ok h
  obtain ⟨snap, σ₂, hsnap, h₂⟩ := Planning.run_bind_ok h₁
  obtain ⟨trees, σ₃, htrees, h₃⟩ := Planning.run_bind_ok h₂
  obtain ⟨steps₁, σ₄, hforest, h₄⟩ := Planning.run_bind_ok h₃
  obtain ⟨steps₂, σ₅, hrec, h₅⟩ := Planning.run_bind_ok h₄
  obtain ⟨raw, σ₆, hraw, h₆⟩ := Planning.run_bind_ok h₅
  obtain ⟨sched, σ₇, hsched, h₇⟩ := Planning.run_bind_ok h₆
  obtain ⟨steps₃, σ₈, hschedule, h₈⟩ := Planning.run_bind_ok h₇
  cases h₈
  obtain ⟨-, e₁⟩ := Planning.run_ofOutcome_ok hvalid
  obtain ⟨hsnap', e₂⟩ := Planning.run_ofFault_ok hsnap
  obtain ⟨htrees', e₃⟩ := Planning.run_ofOutcome_ok htrees
  obtain ⟨hrec', e₅⟩ := Planning.run_ofOutcome_ok hrec
  obtain ⟨-, e₆⟩ := Planning.run_ofFault_ok hraw
  obtain ⟨-, e₇⟩ := Planning.run_ofFault_ok hsched
  subst e₁ e₂ e₃ e₅ e₆ e₇
  have hfits : ∀ t ∈ trees, ∀ x ∈ t.nodes, x.head.Fits (RunUnits catalog.recipes) :=
    fun t ht x hx => unfolded_fits hsnap' (Node.expandAll_unfolded htrees' t ht x hx)
  obtain ⟨hw₁, hm₁, hle₁, hplain₁⟩ := Step.ofForest_wellFormed (.inl rfl) hfits hforest
  have hrel := Step.reconcile_reconciled hrec'
  obtain ⟨hw₂, -⟩ := hw₁.reconciled (fun s hs => (hplain₁ s hs).1) hrel
  have hm₂ :=
    hm₁.of_mintViews (map_eq_of_forall₂ (hrel.imp fun (a b : Step) (hr : Step.Reconciled a b) =>
      (Step.shape_congr hr.1 Step.mintView fun _ => rfl).symm)).symm
  obtain ⟨hw₃, hm₃, hle₃, hsrc⟩ := Step.schedule_wellFormed hw₂ hm₂ hschedule
  refine ⟨hw₃, hm₃, Nat.le_trans hle₁ hle₃, fun y hy => ?_⟩
  obtain ⟨s₂, hs₂, hview⟩ := hsrc y hy
  obtain ⟨s₁, hs₁, hsh, -⟩ := exists_of_forall₂_right hrel hs₂
  have hout : y.out = s₁.out :=
    (congrArg (fun v => v.2.2.2.2.1) hview).trans (Step.shape_congr hsh Step.out fun _ => rfl)
  rw [hout]
  exact (hplain₁ s₁ hs₁).2

end Fabrication
