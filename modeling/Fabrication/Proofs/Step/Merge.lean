import Fabrication.Proofs.Tree.Expand
import Fabrication.Proofs.Table
import Fabrication.Step.Merge
import Mathlib

/-!
# What merging trees into steps keeps

Merging the nodes of a forest gives one step per recipe key (`Step.Merged`). A step is as
deep as the deepest node of its key, and exactly as deep as one of them; it makes the material
of one of its nodes; its target is what the roots of its key ask for; and it is neither split
nor bought. The nodes are merged one at a time, so each of these is kept by merging one node
(`Merged.absorb`, `Merged.append`) and by adding a root's quantity to a target
(`Merged.addRoot`); a whole forest then keeps them by induction (`ofForest_merged`), the copy
steps and the final sort apart.
-/

namespace Fabrication

/-- The recipe key of an expansion. -/
def Expansion.key (e : Expansion) : RecipeKey := ⟨e.recipe, e.activity⟩

namespace Step

/-- Units that the roots of a key ask for. -/
def rootQuantity (roots : List Expansion) (k : RecipeKey) : Nat :=
  ((roots.filter (·.key == k)).map (·.quantity)).sum

theorem rootQuantity_append_singleton (roots : List Expansion) (r : Expansion) (k : RecipeKey) :
    rootQuantity (roots ++ [r]) k = rootQuantity roots k + if r.key = k then r.quantity else 0 := by
  by_cases h : r.key = k <;> simp [rootQuantity, List.filter_append, h]

/-- Steps merged from the nodes `heads`, among which the roots `roots`. -/
structure Merged (heads roots : List Expansion) (steps : List Step) : Prop where
  keys : (steps.map key).Nodup
  plain : ∀ s ∈ steps, s.split = none ∧ s.purchased = false
  attained : ∀ s ∈ steps, ∃ e ∈ heads, e.key = s.key ∧ e.depth = s.depth
  products : ∀ s ∈ steps, ∃ e ∈ heads, e.key = s.key ∧ e.material = s.product
  deepest : ∀ e ∈ heads, ∃ s ∈ steps, s.key = e.key ∧ e.depth ≤ s.depth
  target : ∀ s ∈ steps, s.target = rootQuantity roots s.key

theorem merged_nil : Merged [] [] [] :=
  ⟨List.nodup_nil, by simp, by simp, by simp, by simp, by simp⟩

/-- How the step of a node's key takes the node in: it becomes as deep as the deeper of the
two, and keeps its key, product, target, split and purchase. -/
def Absorbs (e : Expansion) (s s' : Step) : Prop :=
  s'.key = s.key ∧ s'.product = s.product ∧ s'.target = s.target ∧ s'.split = s.split ∧
    s'.purchased = s.purchased ∧ s'.depth = Nat.max s.depth e.depth

theorem absorb_absorbs {m m' : Merging} {e : Expansion} (h : absorb m e = .ok m') :
    Absorbs e m.step m'.step := by
  unfold absorb at h
  obtain ⟨q, -, h⟩ := ok_of_bind h
  dsimp only at h
  split at h <;> cases h <;> exact ⟨rfl, rfl, rfl, rfl, rfl, rfl⟩

variable {heads roots : List Expansion}

/-- Merging a node into the step of its key keeps the invariant. -/
theorem Merged.absorb {steps steps' : List Step} {e : Expansion} (hm : Merged heads roots steps)
    (hk : ∃ s ∈ steps, s.key = e.key)
    (hrel : List.Forall₂ (fun s s' => (s.key = e.key → Absorbs e s s') ∧ (s.key ≠ e.key → s' = s))
      steps steps') :
    Merged (heads ++ [e]) roots steps' := by
  -- each step keeps what the invariant reads of it, and only the step of the node's key deepens
  have hsame : ∀ s s' : Step, (s.key = e.key → Absorbs e s s') ∧ (s.key ≠ e.key → s' = s) →
      s'.key = s.key ∧ s'.product = s.product ∧ s'.target = s.target ∧ s'.split = s.split ∧
        s'.purchased = s.purchased ∧ s.depth ≤ s'.depth ∧ (s.key = e.key → e.depth ≤ s'.depth) ∧
        (s'.depth = s.depth ∨ (s.key = e.key ∧ s'.depth = e.depth)) := by
    rintro s s' ⟨habs, hkeep⟩
    by_cases hse : s.key = e.key
    · obtain ⟨h1, h2, h3, h4, h5, h6⟩ := habs hse
      refine ⟨h1, h2, h3, h4, h5, h6 ▸ Nat.le_max_left _ _, fun _ => h6 ▸ Nat.le_max_right _ _, ?_⟩
      rcases Nat.le_total e.depth s.depth with hle | hle
      · exact .inl (h6.trans (Nat.max_eq_left hle))
      · exact .inr ⟨hse, h6.trans (Nat.max_eq_right hle)⟩
    · cases hkeep hse
      exact ⟨rfl, rfl, rfl, rfl, rfl, Nat.le_refl _, fun h => absurd h hse, .inl rfl⟩
  have hrel' := hrel.imp fun s s' h => hsame s s' h
  refine ⟨?_, ?_, ?_, ?_, ?_, ?_⟩
  · rw [← map_eq_of_forall₂ (hrel'.imp fun _ _ h => h.1.symm)]
    exact hm.keys
  · intro s' hs'
    obtain ⟨s, hs, hk, -, -, hsplit, hbought, -⟩ := exists_of_forall₂_right hrel' hs'
    rw [hsplit, hbought]
    exact hm.plain s hs
  · intro s' hs'
    obtain ⟨s, hs, hk, -, -, -, -, -, -, hd⟩ := exists_of_forall₂_right hrel' hs'
    rcases hd with hd | ⟨hse, hd⟩
    · obtain ⟨e', he', hk', hd'⟩ := hm.attained s hs
      exact ⟨e', List.mem_append_left _ he', hk'.trans hk.symm, hd'.trans hd.symm⟩
    · exact ⟨e, List.mem_append_right _ (List.mem_singleton_self e), (hk.trans hse).symm, hd.symm⟩
  · intro s' hs'
    obtain ⟨s, hs, hk, hprod, -⟩ := exists_of_forall₂_right hrel' hs'
    obtain ⟨e', he', hk', hmat⟩ := hm.products s hs
    exact ⟨e', List.mem_append_left _ he', hk'.trans hk.symm, hmat.trans hprod.symm⟩
  · intro e' he'
    rcases List.mem_append.1 he' with he' | he'
    · obtain ⟨s, hs, hk', hd⟩ := hm.deepest e' he'
      obtain ⟨s', hs', hk, -, -, -, -, hdeeper, -⟩ := exists_of_forall₂ hrel' hs
      exact ⟨s', hs', hk.trans hk', Nat.le_trans hd hdeeper⟩
    · rw [List.mem_singleton.1 he']
      obtain ⟨s, hs, hse⟩ := hk
      obtain ⟨s', hs', hk, -, -, -, -, -, hdeep, -⟩ := exists_of_forall₂ hrel' hs
      exact ⟨s', hs', hk.trans hse, hdeep hse⟩
  · intro s' hs'
    obtain ⟨s, hs, hk, -, htarget, -⟩ := exists_of_forall₂_right hrel' hs'
    rw [htarget, hk]
    exact hm.target s hs

/-- A node of a key without a step makes a new step of that key. -/
theorem Merged.append {steps : List Step} {e : Expansion} {s : Step} (hm : Merged heads roots steps)
    (hroots : ∀ r ∈ roots, r ∈ heads) (hk : ∀ t ∈ steps, t.key ≠ e.key)
    (hs : s.key = e.key ∧ s.product = e.material ∧ s.depth = e.depth ∧ s.target = 0 ∧
      s.split = none ∧ s.purchased = false) :
    Merged (heads ++ [e]) roots (steps ++ [s]) := by
  obtain ⟨hsk, hsp, hsd, hst, hss, hsb⟩ := hs
  refine ⟨?_, ?_, ?_, ?_, ?_, ?_⟩
  · rw [List.map_append, List.nodup_append]
    refine ⟨hm.keys, List.nodup_singleton _, ?_⟩
    intro a ha b hb hab
    obtain ⟨t, ht, rfl⟩ := List.mem_map.1 ha
    rw [List.map_singleton, List.mem_singleton] at hb
    exact hk t ht (hab.trans (hb.trans hsk))
  · intro t ht
    rcases List.mem_append.1 ht with ht | ht
    · exact hm.plain t ht
    · rw [List.mem_singleton.1 ht]; exact ⟨hss, hsb⟩
  · intro t ht
    rcases List.mem_append.1 ht with ht | ht
    · obtain ⟨e', he', hk', hd⟩ := hm.attained t ht
      exact ⟨e', List.mem_append_left _ he', hk', hd⟩
    · rw [List.mem_singleton.1 ht]
      exact ⟨e, List.mem_append_right _ (List.mem_singleton_self e), hsk.symm, hsd.symm⟩
  · intro t ht
    rcases List.mem_append.1 ht with ht | ht
    · obtain ⟨e', he', hk', hmat⟩ := hm.products t ht
      exact ⟨e', List.mem_append_left _ he', hk', hmat⟩
    · rw [List.mem_singleton.1 ht]
      exact ⟨e, List.mem_append_right _ (List.mem_singleton_self e), hsk.symm, hsp.symm⟩
  · intro e' he'
    rcases List.mem_append.1 he' with he' | he'
    · obtain ⟨t, ht, hk', hd⟩ := hm.deepest e' he'
      exact ⟨t, List.mem_append_left _ ht, hk', hd⟩
    · rw [List.mem_singleton.1 he']
      exact ⟨s, List.mem_append_right _ (List.mem_singleton_self s), hsk, Nat.le_of_eq hsd.symm⟩
  · intro t ht
    rcases List.mem_append.1 ht with ht | ht
    · exact hm.target t ht
    · rw [List.mem_singleton.1 ht, hst, hsk]
      have hnone : roots.filter (·.key == e.key) = [] := by
        refine List.filter_eq_nil_iff.2 fun r hr hre => ?_
        obtain ⟨t, ht, hkt, -⟩ := hm.deepest r (hroots r hr)
        exact hk t ht (hkt.trans (by simpa using hre))
      simp [rootQuantity, hnone]

/-- Adding a root's quantity to the target of its key's step keeps the invariant. -/
theorem Merged.addRoot {steps steps' : List Step} {r : Expansion} (hm : Merged heads roots steps)
    (hrel : List.Forall₂ (fun s s' => (s.key = r.key → s' = { s with target := s.target + r.quantity }) ∧
      (s.key ≠ r.key → s' = s)) steps steps') :
    Merged heads (roots ++ [r]) steps' := by
  have hsame : ∀ s s' : Step, (s.key = r.key → s' = { s with target := s.target + r.quantity }) ∧
      (s.key ≠ r.key → s' = s) →
      s'.key = s.key ∧ s'.product = s.product ∧ s'.split = s.split ∧ s'.purchased = s.purchased ∧
        s'.depth = s.depth ∧ s'.target = s.target + if r.key = s.key then r.quantity else 0 := by
    rintro s s' ⟨hadd, hkeep⟩
    by_cases hsr : s.key = r.key
    · cases hadd hsr
      exact ⟨rfl, rfl, rfl, rfl, rfl, by simp [hsr]⟩
    · cases hkeep hsr
      exact ⟨rfl, rfl, rfl, rfl, rfl, by simp [Ne.symm hsr]⟩
  have hrel' := hrel.imp fun s s' h => hsame s s' h
  refine ⟨?_, ?_, ?_, ?_, ?_, ?_⟩
  · rw [← map_eq_of_forall₂ (hrel'.imp fun _ _ h => h.1.symm)]
    exact hm.keys
  · intro s' hs'
    obtain ⟨s, hs, -, -, hsplit, hbought, -⟩ := exists_of_forall₂_right hrel' hs'
    rw [hsplit, hbought]
    exact hm.plain s hs
  · intro s' hs'
    obtain ⟨s, hs, hk, -, -, -, hd, -⟩ := exists_of_forall₂_right hrel' hs'
    rw [hk, hd]
    exact hm.attained s hs
  · intro s' hs'
    obtain ⟨s, hs, hk, hprod, -⟩ := exists_of_forall₂_right hrel' hs'
    rw [hk, hprod]
    exact hm.products s hs
  · intro e he
    obtain ⟨s, hs, hk, hd⟩ := hm.deepest e he
    obtain ⟨s', hs', hk', -, -, -, hd', -⟩ := exists_of_forall₂ hrel' hs
    exact ⟨s', hs', hk'.trans hk, hd'.symm ▸ hd⟩
  · intro s' hs'
    obtain ⟨s, hs, hk, -, -, -, -, htarget⟩ := exists_of_forall₂_right hrel' hs'
    rw [htarget, hk, hm.target s hs, rootQuantity_append_singleton]

variable {σ τ : IdSupply}

theorem mergeNode_merged {acc acc' : List Merging} {e : Expansion}
    (hm : Merged heads roots (acc.map (·.step))) (hroots : ∀ r ∈ roots, r ∈ heads)
    (h : (mergeNode acc e).run σ = .ok (acc', τ)) :
    Merged (heads ++ [e]) roots (acc'.map (·.step)) := by
  unfold mergeNode at h
  dsimp only at h
  split at h
  · rename_i hany
    have hrel := Planning.mapM_forall₂ (fun m m' : Merging =>
        (m.step.key = e.key → Absorbs e m.step m'.step) ∧ (m.step.key ≠ e.key → m'.step = m.step)) h
      (fun m m' ρ ρ' _ hm => by
        split at hm
        · rename_i hk
          have hke : m.step.key = e.key := by simpa [Expansion.key] using hk
          exact ⟨fun _ => absorb_absorbs (Planning.run_ofFault_ok hm).1, fun hne => absurd hke hne⟩
        · rename_i hk
          cases hm
          exact ⟨fun hke => absurd (by simpa [Expansion.key] using hke) hk, fun _ => rfl⟩)
    refine hm.absorb ?_ (List.forall₂_map_left_iff.2 (List.forall₂_map_right_iff.2 hrel))
    obtain ⟨m, hmem, hk⟩ := List.any_eq_true.1 hany
    exact ⟨m.step, List.mem_map_of_mem hmem, by simpa [Expansion.key] using hk⟩
  · rename_i hany
    obtain ⟨id, ρ, -, h⟩ := Planning.run_bind_ok h
    cases h
    rw [List.map_append]
    refine hm.append hroots (fun t ht hte => hany ?_) ⟨rfl, rfl, rfl, rfl, rfl, rfl⟩
    obtain ⟨m, hmem, rfl⟩ := List.mem_map.1 ht
    exact List.any_eq_true.2 ⟨m, hmem, by simpa [Expansion.key] using hte⟩

theorem foldlM_mergeNode_merged (l : List Node) {heads : List Expansion} {acc acc' : List Merging}
    (hm : Merged heads roots (acc.map (·.step))) (hroots : ∀ r ∈ roots, r ∈ heads)
    (h : (l.foldlM (fun acc n => mergeNode acc n.head) acc).run σ = .ok (acc', τ)) :
    Merged (heads ++ l.map (·.head)) roots (acc'.map (·.step)) := by
  induction l generalizing heads acc σ with
  | nil => cases h; simpa using hm
  | cons n l ih =>
    rw [List.foldlM_cons] at h
    obtain ⟨acc₁, ρ, h₁, h⟩ := Planning.run_bind_ok h
    have := ih (mergeNode_merged hm hroots h₁)
      (fun r hr => List.mem_append_left _ (hroots r hr)) h
    simpa using this

theorem mergeTree_merged {acc acc' : List Merging} {root : Node}
    (hm : Merged heads roots (acc.map (·.step))) (hroots : ∀ r ∈ roots, r ∈ heads)
    (h : (mergeTree acc root).run σ = .ok (acc', τ)) :
    Merged (heads ++ root.nodes.map (·.head)) (roots ++ [root.head]) (acc'.map (·.step)) := by
  unfold mergeTree at h
  obtain ⟨acc₁, ρ, hfold, h⟩ := Planning.run_bind_ok h
  have h₁ := foldlM_mergeNode_merged _ hm hroots hfold
  have hrel := Planning.mapM_forall₂ (fun m m' : Merging =>
      (m.step.key = root.head.key →
        m'.step = { m.step with target := m.step.target + root.head.quantity }) ∧
      (m.step.key ≠ root.head.key → m'.step = m.step)) h
    (fun m m' ρ ρ' _ hm => by
      split at hm
      · rename_i hk
        obtain ⟨target, ρ₁, ht, hm⟩ := Planning.run_bind_ok hm
        cases hm
        have htarget := Count.eq_of_add?_ok (Planning.run_ofFault_ok ht).1
        exact ⟨fun _ => by rw [htarget], fun hne => absurd (by simpa [Expansion.key] using hk) hne⟩
      · rename_i hk
        cases hm
        exact ⟨fun hke => absurd (by simpa [Expansion.key] using hke) hk, fun _ => rfl⟩)
  exact h₁.addRoot (List.forall₂_map_left_iff.2 (List.forall₂_map_right_iff.2 hrel))

/-- The roots of the trees merged so far stay among their nodes. -/
theorem roots_mem_append {t : Node} (hroots : ∀ r ∈ roots, r ∈ heads) :
    ∀ r ∈ roots ++ [t.head], r ∈ heads ++ t.nodes.map (·.head) := by
  intro r hr
  rcases List.mem_append.1 hr with hr | hr
  · exact List.mem_append_left _ (hroots r hr)
  · rw [List.mem_singleton.1 hr]
    exact List.mem_append_right _ (List.mem_map_of_mem (Node.self_mem_nodes t))

theorem foldlM_mergeTree_merged (forest : List Node) {heads roots : List Expansion}
    {acc acc' : List Merging} (hm : Merged heads roots (acc.map (·.step)))
    (hroots : ∀ r ∈ roots, r ∈ heads) (h : (forest.foldlM mergeTree acc).run σ = .ok (acc', τ)) :
    Merged (heads ++ forest.flatMap fun t => t.nodes.map (·.head)) (roots ++ forest.map (·.head))
      (acc'.map (·.step)) := by
  induction forest generalizing heads roots acc σ with
  | nil => cases h; simpa using hm
  | cons t forest ih =>
    rw [List.foldlM_cons] at h
    obtain ⟨acc₁, ρ, h₁, h⟩ := Planning.run_bind_ok h
    simpa using ih (mergeTree_merged hm hroots h₁) (roots_mem_append hroots) h

/-- The steps of a forest are its merged steps and copy steps, in some order. -/
theorem ofForest_merged {forest : List Node} {snap : Snapshot} {config : EngineConfig}
    {steps : List Step} (h : (ofForest forest snap config).run σ = .ok (steps, τ)) :
    ∃ merged copies, Merged (forest.flatMap fun t => t.nodes.map (·.head))
        (forest.map (·.head)) merged ∧
      (∀ c ∈ copies, c.isCopy = true ∧ c.split = none ∧ c.purchased = false) ∧
      steps.Perm (merged ++ copies) := by
  unfold ofForest at h
  obtain ⟨acc, ρ, hfold, h⟩ := Planning.run_bind_ok h
  have hm := foldlM_mergeTree_merged forest merged_nil (by simp) hfold
  dsimp only at h
  split at h
  · obtain ⟨copies, ρ', hcopies, h⟩ := Planning.run_bind_ok h
    cases h
    refine ⟨acc.map (·.step), copies, by simpa using hm, fun c hc => ?_, sortBy_perm _ _⟩
    have hrel := Planning.mapM_forall₂
      (fun (_ : Step) (c : Step) => c.isCopy = true ∧ c.split = none ∧ c.purchased = false)
      hcopies fun s c ρ ρ' _ hc => by
        obtain ⟨id, ρ₁, -, hc⟩ := Planning.run_bind_ok hc
        cases hc
        exact ⟨rfl, rfl, rfl⟩
    obtain ⟨s, -, hcs⟩ := exists_of_forall₂_right hrel hc
    exact hcs
  · cases h
    exact ⟨acc.map (·.step), [], by simpa using hm, (fun c hc => by cases hc), sortBy_perm _ _⟩

end Step

end Fabrication
