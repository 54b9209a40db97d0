import Fabrication.Proofs.Step.Merge
import Fabrication.Proofs.Step.Identifiers

/-!
# The steps that merging trees makes

Merging the nodes of a forest makes, for each recipe key, a step fixed by the nodes of that key
(`Step.Consolidates`). The step tallies them (`Step.Tallies`): it adds up their quantities and
works its runs out from the sum, makes the material of one of them at that node's units per run,
is as deep as the deepest, and aims at what the roots of its key ask for. And it takes its
efficiencies and bonus from a node that no node of its key outranks (`Expansion.rank`:
shallower first, then the higher material efficiency). The merge fails exactly when one of
the sums it forms leaves the counts (`Step.ofForest_ok_iff`, `Step.SumsFit`).

The nodes are merged one at a time, so each fact is kept by merging one node (`absorb_spec`,
`mergeNode_spec`) and by adding a root's quantity to a target (`addRoot_spec`), and a forest
keeps them by induction (`foldlM_mergeTree_spec`).

Neither the facts nor the condition for success depend on the order of the nodes. So when the
nodes of each key agree on all that a step takes from them (`Step.Uniform`), merging the trees
in another order makes the same steps except for identifiers (`Step.ofForest_agree`).
-/

namespace Fabrication

namespace Expansion

/-- How a node ranks when a merged step chooses the node to take its efficiencies from:
shallower first, then the higher material efficiency. -/
def rank (e : Expansion) : ℕ ×ₗ ℕᵒᵈ := toLex (e.depth, OrderDual.toDual e.me)

theorem rank_lt_iff {e b : Expansion} :
    e.rank < b.rank ↔ e.depth < b.depth ∨ (e.depth = b.depth ∧ b.me < e.me) := by
  simp [rank, Prod.Lex.toLex_lt_toLex]

theorem rank_eq_iff {e b : Expansion} : e.rank = b.rank ↔ e.depth = b.depth ∧ e.me = b.me := by
  simp [rank]

end Expansion

namespace Step

variable {heads roots : List Expansion}

/-- Units that the nodes of a key ask for. -/
def quantityOf (heads : List Expansion) (k : RecipeKey) : Nat :=
  ((heads.filter (·.key == k)).map (·.quantity)).sum

theorem quantityOf_append_singleton (heads : List Expansion) (e : Expansion) (k : RecipeKey) :
    quantityOf (heads ++ [e]) k = quantityOf heads k + if e.key = k then e.quantity else 0 := by
  by_cases h : e.key = k <;> simp [quantityOf, List.filter_append, h]

theorem quantityOf_le_append (heads more : List Expansion) (k : RecipeKey) :
    quantityOf heads k ≤ quantityOf (heads ++ more) k := by
  simp [quantityOf, List.filter_append]

/-! ### The node a step takes its efficiencies from -/

/-- A node of key `k` that no node of that key outranks. -/
def Best (heads : List Expansion) (k : RecipeKey) (b : Expansion) : Prop :=
  b ∈ heads ∧ b.key = k ∧ ∀ e ∈ heads, e.key = k → b.rank ≤ e.rank

/-- A step with the efficiencies and bonus of a node. -/
def TakesFrom (s : Step) (b : Expansion) : Prop :=
  s.me = b.me ∧ s.te = b.te ∧ s.bonus = b.bonus ∧ s.bonusMissing = b.bonusMissing

section Best

variable {k : RecipeKey} {b e : Expansion}

theorem Best.append_of_ne (hb : Best heads k b) (he : e.key ≠ k) : Best (heads ++ [e]) k b := by
  refine ⟨List.mem_append_left _ hb.1, hb.2.1, fun x hx hxk => ?_⟩
  rcases List.mem_append.1 hx with hx | hx
  · exact hb.2.2 x hx hxk
  · obtain rfl := List.mem_singleton.1 hx
    exact absurd hxk he

theorem Best.append_of_le (hb : Best heads k b) (hle : b.rank ≤ e.rank) :
    Best (heads ++ [e]) k b := by
  refine ⟨List.mem_append_left _ hb.1, hb.2.1, fun x hx hxk => ?_⟩
  rcases List.mem_append.1 hx with hx | hx
  · exact hb.2.2 x hx hxk
  · obtain rfl := List.mem_singleton.1 hx
    exact hle

theorem Best.append_of_lt (hb : Best heads k b) (he : e.key = k) (hlt : e.rank < b.rank) :
    Best (heads ++ [e]) k e := by
  refine ⟨List.mem_append_right _ (List.mem_singleton_self e), he, fun x hx hxk => ?_⟩
  rcases List.mem_append.1 hx with hx | hx
  · exact le_trans hlt.le (hb.2.2 x hx hxk)
  · obtain rfl := List.mem_singleton.1 hx
    exact le_rfl

theorem best_append_new (hnew : ∀ x ∈ heads, x.key ≠ e.key) :
    Best (heads ++ [e]) e.key e := by
  refine ⟨List.mem_append_right _ (List.mem_singleton_self e), rfl, fun x hx hxk => ?_⟩
  rcases List.mem_append.1 hx with hx | hx
  · exact absurd hxk (hnew x hx)
  · obtain rfl := List.mem_singleton.1 hx
    exact le_rfl

/-- The nodes that no node of their key outranks all rank alike. -/
theorem Best.rank_eq {b' : Expansion} (hb : Best heads k b) (hb' : Best heads k b') :
    b.rank = b'.rank :=
  le_antisymm (hb.2.2 b' hb'.1 hb'.2.1) (hb'.2.2 b hb.1 hb.2.1)

end Best

/-! ### What a merged step is -/

/-- What a step tallies from the nodes of its key among `heads`, whose roots are `roots`: their
quantities added up, the runs that sum needs at the units per run of the node it makes the
material of, the depth of the deepest, and the quantities the roots of its key ask for. -/
structure Tallies (heads roots : List Expansion) (s : Step) : Prop where
  quantity : s.quantity = quantityOf heads s.key
  runs : s.runs = runsFor s.quantity s.out
  source : ∃ e ∈ heads, e.key = s.key ∧ e.material = s.product ∧ e.out = s.out
  attained : ∃ e ∈ heads, e.key = s.key ∧ e.depth = s.depth
  deepest : ∀ e ∈ heads, e.key = s.key → e.depth ≤ s.depth
  target : s.target = rootQuantity roots s.key
  plain : s.duration = none ∧ s.split = none ∧ s.purchased = false ∧ s.autoMatch = true

/-- The step that merging the nodes `heads`, whose roots are `roots`, makes for its key: it
tallies the nodes of its key and takes its efficiencies and bonus from a best one. -/
structure Consolidates (heads roots : List Expansion) (s : Step) : Prop where
  tallies : Tallies heads roots s
  best : ∃ b, Best heads s.key b ∧ TakesFrom s b

theorem Tallies.append_of_ne {s : Step} {e : Expansion} (hs : Tallies heads roots s)
    (he : e.key ≠ s.key) : Tallies (heads ++ [e]) roots s where
  quantity := by rw [quantityOf_append_singleton, if_neg he, Nat.add_zero]; exact hs.quantity
  runs := hs.runs
  source := by
    obtain ⟨x, hx, h⟩ := hs.source
    exact ⟨x, List.mem_append_left _ hx, h⟩
  attained := by
    obtain ⟨x, hx, h⟩ := hs.attained
    exact ⟨x, List.mem_append_left _ hx, h⟩
  deepest := by
    intro x hx hxk
    rcases List.mem_append.1 hx with hx | hx
    · exact hs.deepest x hx hxk
    · obtain rfl := List.mem_singleton.1 hx
      exact absurd hxk he
  target := hs.target
  plain := hs.plain

/-- A further node of a step's key adds its quantity and may deepen the step. -/
theorem Tallies.absorb {s : Step} {e : Expansion} {q : Nat} (hs : Tallies heads roots s)
    (hk : e.key = s.key) (hq : q = quantityOf (heads ++ [e]) s.key) :
    Tallies (heads ++ [e]) roots
      { s with quantity := q, runs := runsFor q s.out, depth := Nat.max s.depth e.depth } where
  quantity := hq
  runs := rfl
  source := by
    obtain ⟨x, hx, h⟩ := hs.source
    exact ⟨x, List.mem_append_left _ hx, h⟩
  attained := by
    rcases Nat.le_total e.depth s.depth with hle | hle
    · obtain ⟨x, hx, hxk, hxd⟩ := hs.attained
      exact ⟨x, List.mem_append_left _ hx, hxk, hxd.trans (Nat.max_eq_left hle).symm⟩
    · exact ⟨e, List.mem_append_right _ (List.mem_singleton_self e), hk,
        (Nat.max_eq_right hle).symm⟩
  deepest := by
    intro x hx hxk
    rcases List.mem_append.1 hx with hx | hx
    · exact Nat.le_trans (hs.deepest x hx hxk) (Nat.le_max_left _ _)
    · obtain rfl := List.mem_singleton.1 hx
      exact Nat.le_max_right _ _
  target := hs.target
  plain := hs.plain

/-- The first node of a key makes the step of that key. -/
theorem tallies_ofExpansion {e : Expansion} (id : Ident) (hnew : ∀ x ∈ heads, x.key ≠ e.key)
    (hroots : rootQuantity roots e.key = 0) (hruns : e.runs = runsFor e.quantity e.out) :
    Tallies (heads ++ [e]) roots (ofExpansion id e) where
  quantity := by
    have hnone : heads.filter (·.key == e.key) = [] :=
      List.filter_eq_nil_iff.2 fun x hx hxk => hnew x hx (by simpa using hxk)
    show e.quantity = quantityOf (heads ++ [e]) e.key
    simp [quantityOf, hnone]
  runs := hruns
  source := ⟨e, List.mem_append_right _ (List.mem_singleton_self e), rfl, rfl, rfl⟩
  attained := ⟨e, List.mem_append_right _ (List.mem_singleton_self e), rfl, rfl⟩
  deepest := by
    intro x hx hxk
    rcases List.mem_append.1 hx with hx | hx
    · exact absurd hxk (hnew x hx)
    · obtain rfl := List.mem_singleton.1 hx
      exact Nat.le_refl _
  target := hroots.symm
  plain := ⟨rfl, rfl, rfl, rfl⟩

/-- A further node of a step's key adds its quantity to what the step tallies. -/
theorem Tallies.quantity_add {s : Step} {e : Expansion} (hs : Tallies heads roots s)
    (hk : e.key = s.key) : s.quantity + e.quantity = quantityOf (heads ++ [e]) s.key := by
  rw [quantityOf_append_singleton, if_pos hk, hs.quantity]

/-- A further root of a step's key adds its quantity to the step's target. -/
theorem Tallies.target_add {s : Step} {r : Expansion} (hs : Tallies heads roots s)
    (hk : s.key = r.key) : s.target + r.quantity = rootQuantity (roots ++ [r]) s.key := by
  rw [rootQuantity_append_singleton, if_pos hk.symm, hs.target]

/-- Adding a root's quantity to the target of its key's step. -/
theorem Tallies.addRoot {s : Step} {r : Expansion} (hs : Tallies heads roots s)
    (hk : s.key = r.key) :
    Tallies heads (roots ++ [r]) { s with target := s.target + r.quantity } where
  quantity := hs.quantity
  runs := hs.runs
  source := hs.source
  attained := hs.attained
  deepest := hs.deepest
  target := hs.target_add hk
  plain := hs.plain

theorem Tallies.addRoot_of_ne {s : Step} {r : Expansion} (hs : Tallies heads roots s)
    (hk : s.key ≠ r.key) : Tallies heads (roots ++ [r]) s where
  quantity := hs.quantity
  runs := hs.runs
  source := hs.source
  attained := hs.attained
  deepest := hs.deepest
  target := by rw [rootQuantity_append_singleton, if_neg (Ne.symm hk), Nat.add_zero, hs.target]
  plain := hs.plain

end Step

/-- A record of the merge: its step tallies the nodes of its key, and it remembers the depth of
the best node, which the step took its efficiencies and bonus from. -/
structure Merging.Consolidates (heads roots : List Expansion) (m : Merging) : Prop where
  tallies : Step.Tallies heads roots m.step
  best : ∃ b, Step.Best heads m.step.key b ∧ m.step.TakesFrom b ∧ b.depth = m.shallowest

namespace Merging

variable {heads roots : List Expansion} {m : Merging}

theorem Consolidates.step (h : m.Consolidates heads roots) : Step.Consolidates heads roots m.step :=
  ⟨h.1, let ⟨b, hb, ht, _⟩ := h.2; ⟨b, hb, ht⟩⟩

theorem Consolidates.append_of_ne {e : Expansion} (h : m.Consolidates heads roots)
    (he : e.key ≠ m.step.key) : m.Consolidates (heads ++ [e]) roots :=
  ⟨h.1.append_of_ne he, let ⟨b, hb, ht, hd⟩ := h.2; ⟨b, hb.append_of_ne he, ht, hd⟩⟩

theorem Consolidates.addRoot {r : Expansion} (h : m.Consolidates heads roots)
    (hk : m.step.key = r.key) :
    ({ m with step := { m.step with target := m.step.target + r.quantity } } : Merging).Consolidates
      heads (roots ++ [r]) :=
  ⟨h.1.addRoot hk, h.2⟩

theorem Consolidates.addRoot_of_ne {r : Expansion} (h : m.Consolidates heads roots)
    (hk : m.step.key ≠ r.key) : m.Consolidates heads (roots ++ [r]) :=
  ⟨h.1.addRoot_of_ne hk, h.2⟩

end Merging

namespace Step

variable {heads roots : List Expansion} {σ τ : IdSupply}

/-! ### Merging one node -/

/-- A step whose efficiencies and bonus are replaced tallies what it tallied. -/
theorem Tallies.withEfficiencies {s : Step} (hs : Tallies heads roots s) (b : Bonus)
    (me te : Nat) (missing : Bool) :
    Tallies heads roots { s.applyBonus b with me, te, bonusMissing := missing } :=
  ⟨hs.quantity, hs.runs, hs.source, hs.attained, hs.deepest, hs.target, hs.plain⟩

/-- Merging a further node of a record's key into it: the key's quantities add up to a count,
and the record consolidates the nodes with the new one, taking the new node's efficiencies
when it outranks the best node so far. -/
theorem absorb_spec {m m' : Merging} {e : Expansion} (hm : m.Consolidates heads roots)
    (hk : e.key = m.step.key) (h : absorb m e = .ok m') :
    m'.step.key = m.step.key ∧ m'.Consolidates (heads ++ [e]) roots ∧
      quantityOf (heads ++ [e]) e.key < Count.bound := by
  obtain ⟨hg, b, hb, htakes, hdepth⟩ := hm
  unfold absorb at h
  obtain ⟨q, hq, h⟩ := ok_of_bind h
  have hsum : q = quantityOf (heads ++ [e]) m.step.key :=
    (Count.eq_of_add?_ok hq).trans (hg.quantity_add hk)
  have htallies := hg.absorb hk hsum
  have hbound : quantityOf (heads ++ [e]) e.key < Count.bound := by
    rw [hk, ← hsum]
    exact Count.lt_bound_of_check_ok hq
  dsimp only at h
  split at h
  · rename_i hbetter
    cases h
    have hlt : e.rank < b.rank := by
      rw [Expansion.rank_lt_iff, hdepth, ← htakes.1]
      simpa using hbetter
    exact ⟨rfl, ⟨htallies.withEfficiencies e.bonus e.me e.te e.bonusMissing,
      e, hb.append_of_lt hk hlt, ⟨rfl, rfl, rfl, rfl⟩, rfl⟩, hbound⟩
  · rename_i hworse
    cases h
    have hle : b.rank ≤ e.rank := by
      rw [← not_lt, Expansion.rank_lt_iff, hdepth, ← htakes.1]
      simpa using hworse
    exact ⟨rfl, ⟨htallies, b, hb.append_of_le hle, htakes, hdepth⟩, hbound⟩

theorem absorb_ok {m : Merging} {e : Expansion} (h : m.step.quantity + e.quantity < Count.bound) :
    ∃ m', absorb m e = .ok m' := by
  have hq : Count.add? m.step.quantity e.quantity = .ok (m.step.quantity + e.quantity) := by
    simp [Count.add?, Count.check, h]
  unfold absorb
  rw [hq]
  dsimp only [bind, Except.bind]
  split
  · exact ⟨_, rfl⟩
  · exact ⟨_, rfl⟩

/-- The records merged from the nodes `heads`, whose roots are `roots`: one record per key of
the nodes, each consolidating the nodes of its key. -/
structure MergeState (heads roots : List Expansion) (acc : List Merging) : Prop where
  keys : (acc.map (·.step.key)).Nodup
  covers : ∀ e ∈ heads, ∃ m ∈ acc, m.step.key = e.key
  records : ∀ m ∈ acc, m.Consolidates heads roots

theorem mergeState_nil : MergeState [] [] [] := ⟨List.nodup_nil, by simp, by simp⟩

/-- The keys with a record are the keys of the nodes. -/
theorem MergeState.exists_record_iff {acc : List Merging} (hm : MergeState heads roots acc)
    {k : RecipeKey} : (∃ m ∈ acc, m.step.key = k) ↔ k ∈ heads.map (·.key) := by
  constructor
  · rintro ⟨m, hmem, rfl⟩
    obtain ⟨e, he, hk, -⟩ := (hm.records m hmem).1.source
    exact List.mem_map.2 ⟨e, he, hk⟩
  · intro hk
    obtain ⟨e, he, rfl⟩ := List.mem_map.1 hk
    exact hm.covers e he

/-- Records changed one at a time, each keeping its key, stay one per key and cover what the
old records covered. -/
theorem MergeState.of_forall₂ {heads' roots' : List Expansion} {acc acc' : List Merging}
    (hm : MergeState heads roots acc)
    (hsame : List.Forall₂ (fun m m' : Merging => m.step.key = m'.step.key) acc acc')
    (hcovers : ∀ e ∈ heads', ∃ m ∈ acc, m.step.key = e.key)
    (hrecords : ∀ m' ∈ acc', m'.Consolidates heads' roots') :
    MergeState heads' roots' acc' where
  keys := by
    rw [← map_eq_of_forall₂ hsame]
    exact hm.keys
  covers := by
    intro x hx
    obtain ⟨m, hmem, hk⟩ := hcovers x hx
    obtain ⟨m', hm', hkm⟩ := exists_of_forall₂ hsame hmem
    exact ⟨m', hm', hkm ▸ hk⟩
  records := hrecords

theorem mergeNode_spec {acc acc' : List Merging} {e : Expansion} (hm : MergeState heads roots acc)
    (hroots : ∀ r ∈ roots, r ∈ heads) (hruns : e.runs = runsFor e.quantity e.out)
    (h : (mergeNode acc e).run σ = .ok (acc', τ)) : MergeState (heads ++ [e]) roots acc' := by
  unfold mergeNode at h
  dsimp only at h
  split at h
  · rename_i hany
    have hrel := Planning.mapM_forall₂ (fun m m' : Merging =>
        (m.step.key = e.key →
            m'.step.key = m.step.key ∧ m'.Consolidates (heads ++ [e]) roots) ∧
          (m.step.key ≠ e.key → m' = m)) h
      (fun m m' ρ ρ' hmem hm' => by
        split at hm'
        · rename_i hk
          have hke : m.step.key = e.key := by simpa [Expansion.key] using hk
          obtain ⟨hkey, hcons, -⟩ :=
            absorb_spec (hm.records m hmem) hke.symm (Planning.run_ofFault_ok hm').1
          exact ⟨fun _ => ⟨hkey, hcons⟩, fun hne => absurd hke hne⟩
        · rename_i hk
          cases hm'
          exact ⟨fun hke => absurd (by simpa [Expansion.key] using hke) hk, fun _ => rfl⟩)
    have hsame : List.Forall₂ (fun m m' : Merging => m.step.key = m'.step.key) acc acc' :=
      hrel.imp fun m m' hmm => by
        by_cases hke : m.step.key = e.key
        · exact ((hmm.1 hke).1).symm
        · rw [hmm.2 hke]
    refine hm.of_forall₂ hsame (fun x hx => ?_) fun m' hm' => ?_
    · rcases List.mem_append.1 hx with hx | hx
      · exact hm.covers x hx
      · obtain rfl := List.mem_singleton.1 hx
        obtain ⟨m, hmem, hk⟩ := List.any_eq_true.1 hany
        exact ⟨m, hmem, by simpa [Expansion.key] using hk⟩
    · obtain ⟨m, hmem, hmm⟩ := exists_of_forall₂_right hrel hm'
      by_cases hke : m.step.key = e.key
      · exact (hmm.1 hke).2
      · rw [hmm.2 hke]
        exact (hm.records m hmem).append_of_ne (Ne.symm hke)
  · rename_i hany
    obtain ⟨id, ρ, -, h⟩ := Planning.run_bind_ok h
    cases h
    have hfresh : ∀ m ∈ acc, m.step.key ≠ e.key := fun m hmem hk =>
      hany (List.any_eq_true.2 ⟨m, hmem, by simpa [Expansion.key] using hk⟩)
    have hnew : ∀ x ∈ heads, x.key ≠ e.key := fun x hx hk => by
      obtain ⟨m, hmem, hmk⟩ := hm.covers x hx
      exact hfresh m hmem (hmk.trans hk)
    have hroot : rootQuantity roots e.key = 0 := by
      have hnone : roots.filter (·.key == e.key) = [] :=
        List.filter_eq_nil_iff.2 fun r hr hrk => hnew r (hroots r hr) (by simpa using hrk)
      simp [rootQuantity, hnone]
    refine ⟨?_, ?_, ?_⟩
    · rw [List.map_append, List.nodup_append]
      refine ⟨hm.keys, List.nodup_singleton _, fun a ha b hb hab => ?_⟩
      obtain ⟨m, hmem, rfl⟩ := List.mem_map.1 ha
      rw [List.map_singleton, List.mem_singleton] at hb
      exact hfresh m hmem (hab.trans hb)
    · intro x hx
      rcases List.mem_append.1 hx with hx | hx
      · obtain ⟨m, hmem, hk⟩ := hm.covers x hx
        exact ⟨m, List.mem_append_left _ hmem, hk⟩
      · obtain rfl := List.mem_singleton.1 hx
        exact ⟨_, List.mem_append_right _ (List.mem_singleton_self _), rfl⟩
    · intro m hmem
      rcases List.mem_append.1 hmem with hmem | hmem
      · exact (hm.records m hmem).append_of_ne (Ne.symm (hfresh m hmem))
      · obtain rfl := List.mem_singleton.1 hmem
        exact ⟨tallies_ofExpansion id hnew hroot hruns, e, best_append_new hnew,
          ⟨rfl, rfl, rfl, rfl⟩, rfl⟩

/-- Merging a node fails exactly when its key has nodes already and their quantities, with the
node's, add up past the counts. -/
theorem mergeNode_ok_iff {acc : List Merging} {e : Expansion} (hm : MergeState heads roots acc) :
    (∃ r, (mergeNode acc e).run σ = .ok r) ↔
      (e.key ∈ heads.map (·.key) → quantityOf (heads ++ [e]) e.key < Count.bound) := by
  unfold mergeNode
  dsimp only
  split
  · rename_i hany
    obtain ⟨m, hmem, hmk⟩ := List.any_eq_true.1 hany
    have hmk : m.step.key = e.key := by simpa [Expansion.key] using hmk
    constructor
    · rintro ⟨⟨acc', τ⟩, h⟩ -
      have hrel := Planning.mapM_forall₂ (fun (m _ : Merging) => m.step.key = e.key →
          quantityOf (heads ++ [e]) e.key < Count.bound) h (fun m m' ρ ρ' hmem' hm' => by
        split at hm'
        · exact fun hke => (absorb_spec (hm.records m hmem') hke.symm
            (Planning.run_ofFault_ok hm').1).2.2
        · rename_i hk
          exact fun hke => absurd (by simpa [Expansion.key] using hke) hk)
      obtain ⟨m', -, hm'⟩ := exists_of_forall₂ hrel hmem
      exact hm' hmk
    · intro hfits
      have hfit := hfits ((hm.exists_record_iff).1 ⟨m, hmem, hmk⟩)
      obtain ⟨ys, τ, h⟩ := Planning.mapM_ok (f := fun m : Merging =>
          if m.step.key == ({ id := e.recipe, activity := e.activity } : RecipeKey) then
            Planning.ofFault (absorb m e) else pure m) (fun m' hm' ρ => by
        split
        · rename_i hk
          have hk : m'.step.key = e.key := by simpa [Expansion.key] using hk
          have hlt : m'.step.quantity + e.quantity < Count.bound := by
            rw [(hm.records m' hm').1.quantity_add hk.symm, hk]
            exact hfit
          obtain ⟨m'', h''⟩ := absorb_ok hlt
          exact ⟨m'', ρ, by rw [h'']; rfl⟩
        · exact ⟨m', ρ, rfl⟩) σ
      exact ⟨_, h⟩
  · rename_i hany
    refine ⟨fun _ hk => ?_, fun _ => ⟨_, rfl⟩⟩
    obtain ⟨m, hmem, hmk⟩ := (hm.exists_record_iff).2 hk
    exact absurd (List.any_eq_true.2 ⟨m, hmem, by simpa [Expansion.key] using hmk⟩) hany

/-! ### When the merge succeeds -/

/-- The sums a merge forms stay counts: for each key, what its roots ask for, and, when it has
more than one node, the quantities of its nodes. -/
def SumsFit (heads roots : List Expansion) : Prop :=
  ∀ k, rootQuantity roots k < Count.bound ∧
    ((heads.filter (·.key == k)).length ≤ 1 ∨ quantityOf heads k < Count.bound)

theorem length_keyed_append_singleton (heads : List Expansion) (e : Expansion) (k : RecipeKey) :
    ((heads ++ [e]).filter (·.key == k)).length =
      (heads.filter (·.key == k)).length + if e.key = k then 1 else 0 := by
  by_cases h : e.key = k <;> simp [List.filter_append, h]

theorem SumsFit.of_append_heads {more : List Expansion} (h : SumsFit (heads ++ more) roots) :
    SumsFit heads roots := by
  intro k
  refine ⟨(h k).1, ?_⟩
  rcases (h k).2 with hlen | hq
  · left
    refine le_trans ?_ hlen
    simp [List.filter_append]
  · exact Or.inr (lt_of_le_of_lt (quantityOf_le_append heads more k) hq)

theorem SumsFit.of_append_roots {more : List Expansion} (h : SumsFit heads (roots ++ more)) :
    SumsFit heads roots := by
  intro k
  refine ⟨lt_of_le_of_lt ?_ (h k).1, (h k).2⟩
  simp [rootQuantity, List.filter_append]

theorem SumsFit.perm {heads' roots' : List Expansion} (hh : heads.Perm heads')
    (hr : roots.Perm roots') (h : SumsFit heads roots) : SumsFit heads' roots' := by
  intro k
  have hroot : rootQuantity roots k = rootQuantity roots' k := ((hr.filter _).map _).sum_eq
  have hqty : quantityOf heads k = quantityOf heads' k := ((hh.filter _).map _).sum_eq
  rw [← hroot, ← hqty, ← (hh.filter _).length_eq]
  exact h k

/-- A further node keeps the sums counts exactly when, if its key has nodes already, their
quantities with its own stay a count. -/
theorem sumsFit_append_node_iff {e : Expansion} :
    SumsFit (heads ++ [e]) roots ↔
      SumsFit heads roots ∧
        (e.key ∈ heads.map (·.key) → quantityOf (heads ++ [e]) e.key < Count.bound) := by
  constructor
  · intro h
    refine ⟨h.of_append_heads, fun hk => ?_⟩
    refine (h e.key).2.resolve_left fun hlen => ?_
    obtain ⟨x, hx, hxk⟩ := List.mem_map.1 hk
    have hpos : 0 < (heads.filter (·.key == e.key)).length :=
      List.length_pos_of_mem (List.mem_filter.2 ⟨hx, by simpa using hxk⟩)
    rw [length_keyed_append_singleton, if_pos rfl] at hlen
    omega
  · rintro ⟨h, hnew⟩ k
    refine ⟨(h k).1, ?_⟩
    by_cases hk : e.key = k
    · subst hk
      by_cases hmem : e.key ∈ heads.map (·.key)
      · exact Or.inr (hnew hmem)
      · left
        have hnone : heads.filter (·.key == e.key) = [] :=
          List.filter_eq_nil_iff.2 fun x hx hxk =>
            hmem (List.mem_map.2 ⟨x, hx, by simpa using hxk⟩)
        rw [length_keyed_append_singleton, hnone]
        simp
    · rw [length_keyed_append_singleton, if_neg hk, Nat.add_zero, quantityOf_append_singleton,
        if_neg hk, Nat.add_zero]
      exact (h k).2

/-- A further root keeps the sums counts exactly when what the roots of its key ask for stays
a count. -/
theorem sumsFit_append_root_iff {r : Expansion} :
    SumsFit heads (roots ++ [r]) ↔
      SumsFit heads roots ∧ rootQuantity (roots ++ [r]) r.key < Count.bound := by
  constructor
  · intro h
    exact ⟨h.of_append_roots, (h r.key).1⟩
  · rintro ⟨h, hr⟩ k
    refine ⟨?_, (h k).2⟩
    by_cases hk : r.key = k
    · exact hk ▸ hr
    · rw [rootQuantity_append_singleton, if_neg hk, Nat.add_zero]
      exact (h k).1

/-! ### Merging a forest -/

section Forest

variable {acc acc' : List Merging}

theorem foldlM_mergeNode_spec (l : List Node) (hm : MergeState heads roots acc)
    (hroots : ∀ r ∈ roots, r ∈ heads)
    (hruns : ∀ x ∈ l, x.head.runs = runsFor x.head.quantity x.head.out)
    (hfits : SumsFit heads roots)
    (h : (l.foldlM (fun acc n => mergeNode acc n.head) acc).run σ = .ok (acc', τ)) :
    MergeState (heads ++ l.map (·.head)) roots acc' ∧
      SumsFit (heads ++ l.map (·.head)) roots := by
  induction l generalizing heads acc σ with
  | nil => cases h; simpa using ⟨hm, hfits⟩
  | cons n l ih =>
    rw [List.foldlM_cons] at h
    obtain ⟨acc₁, ρ, h₁, h⟩ := Planning.run_bind_ok h
    have hm₁ := mergeNode_spec hm hroots (hruns n List.mem_cons_self) h₁
    have hfits₁ : SumsFit (heads ++ [n.head]) roots :=
      sumsFit_append_node_iff.2 ⟨hfits, (mergeNode_ok_iff hm).1 ⟨_, h₁⟩⟩
    simpa using ih hm₁ (fun r hr => List.mem_append_left _ (hroots r hr))
      (fun x hx => hruns x (List.mem_cons_of_mem _ hx)) hfits₁ h

theorem foldlM_mergeNode_ok (l : List Node) (hm : MergeState heads roots acc)
    (hroots : ∀ r ∈ roots, r ∈ heads)
    (hruns : ∀ x ∈ l, x.head.runs = runsFor x.head.quantity x.head.out)
    (hfits : SumsFit (heads ++ l.map (·.head)) roots) :
    ∃ r, (l.foldlM (fun acc n => mergeNode acc n.head) acc).run σ = .ok r := by
  induction l generalizing heads acc σ with
  | nil => exact ⟨_, rfl⟩
  | cons n l ih =>
    have hfits' : SumsFit ((heads ++ [n.head]) ++ l.map (·.head)) roots := by simpa using hfits
    obtain ⟨⟨acc₁, ρ⟩, h₁⟩ :=
      (mergeNode_ok_iff hm).2 (sumsFit_append_node_iff.1 hfits'.of_append_heads).2
    have hm₁ := mergeNode_spec hm hroots (hruns n List.mem_cons_self) h₁
    obtain ⟨r, hr⟩ := ih hm₁ (fun r hr => List.mem_append_left _ (hroots r hr))
      (fun x hx => hruns x (List.mem_cons_of_mem _ hx)) hfits'
    rw [List.foldlM_cons]
    exact ⟨r, (Planning.run_bind_of_ok h₁).trans hr⟩

/-- Adding a root's quantity to the target of its key's record. -/
theorem addRoot_spec {r : Expansion} (hm : MergeState heads roots acc) (hr : r ∈ heads)
    (h : (acc.mapM fun m : Merging =>
      if m.step.key == ({ id := r.recipe, activity := r.activity } : RecipeKey) then do
        let target ← Planning.ofFault (Count.add? m.step.target r.quantity)
        pure { m with step := { m.step with target } }
      else pure m).run σ = .ok (acc', τ)) :
    MergeState heads (roots ++ [r]) acc' ∧ rootQuantity (roots ++ [r]) r.key < Count.bound := by
  have hrel := Planning.mapM_forall₂ (fun m m' : Merging =>
      (m.step.key = r.key →
          m' = { m with step := { m.step with target := m.step.target + r.quantity } } ∧
        m.step.target + r.quantity < Count.bound) ∧ (m.step.key ≠ r.key → m' = m)) h
    (fun m m' ρ ρ' _ hm' => by
      split at hm'
      · rename_i hk
        obtain ⟨target, ρ₁, ht, hm'⟩ := Planning.run_bind_ok hm'
        cases hm'
        have hadd := (Planning.run_ofFault_ok ht).1
        have htarget := Count.eq_of_add?_ok hadd
        refine ⟨fun _ => ⟨by rw [htarget], htarget ▸ Count.lt_bound_of_check_ok hadd⟩,
          fun hne => absurd (by simpa [Expansion.key] using hk) hne⟩
      · rename_i hk
        cases hm'
        exact ⟨fun hke => absurd (by simpa [Expansion.key] using hke) hk, fun _ => rfl⟩)
  have hsame : List.Forall₂ (fun m m' : Merging => m.step.key = m'.step.key) acc acc' :=
    hrel.imp fun m m' hmm => by
      by_cases hk : m.step.key = r.key
      · rw [(hmm.1 hk).1]
        rfl
      · rw [hmm.2 hk]
  refine ⟨hm.of_forall₂ hsame hm.covers fun m' hm' => ?_, ?_⟩
  · obtain ⟨m, hmem, hmm⟩ := exists_of_forall₂_right hrel hm'
    by_cases hk : m.step.key = r.key
    · rw [(hmm.1 hk).1]
      exact (hm.records m hmem).addRoot hk
    · rw [hmm.2 hk]
      exact (hm.records m hmem).addRoot_of_ne hk
  · obtain ⟨m, hmem, hmk⟩ := hm.covers r hr
    obtain ⟨m', -, hmm⟩ := exists_of_forall₂ hrel hmem
    rw [← hmk, ← (hm.records m hmem).1.target_add hmk]
    exact (hmm.1 hmk).2

theorem addRoot_ok {r : Expansion} (hm : MergeState heads roots acc)
    (hbound : rootQuantity (roots ++ [r]) r.key < Count.bound) :
    ∃ res, (acc.mapM fun m : Merging =>
      if m.step.key == ({ id := r.recipe, activity := r.activity } : RecipeKey) then do
        let target ← Planning.ofFault (Count.add? m.step.target r.quantity)
        pure { m with step := { m.step with target } }
      else pure m).run σ = .ok res := by
  obtain ⟨ys, τ, h⟩ := Planning.mapM_ok (f := fun m : Merging =>
      if m.step.key == ({ id := r.recipe, activity := r.activity } : RecipeKey) then do
        let target ← Planning.ofFault (Count.add? m.step.target r.quantity)
        pure { m with step := { m.step with target } }
      else pure m) (fun m hmem ρ => by
    split
    · rename_i hk
      have hk : m.step.key = r.key := by simpa [Expansion.key] using hk
      have hlt : m.step.target + r.quantity < Count.bound := by
        rw [(hm.records m hmem).1.target_add hk, hk]
        exact hbound
      have hadd : Count.add? m.step.target r.quantity = .ok (m.step.target + r.quantity) := by
        simp [Count.add?, Count.check, hlt]
      exact ⟨_, ρ, by rw [Planning.run_bind_of_ok (by rw [hadd]; rfl)]; rfl⟩
    · exact ⟨m, ρ, rfl⟩) σ
  exact ⟨_, h⟩

theorem mergeTree_spec {root : Node} (hm : MergeState heads roots acc)
    (hroots : ∀ r ∈ roots, r ∈ heads)
    (hruns : ∀ x ∈ root.nodes, x.head.runs = runsFor x.head.quantity x.head.out)
    (hfits : SumsFit heads roots) (h : (mergeTree acc root).run σ = .ok (acc', τ)) :
    MergeState (heads ++ root.nodes.map (·.head)) (roots ++ [root.head]) acc' ∧
      SumsFit (heads ++ root.nodes.map (·.head)) (roots ++ [root.head]) := by
  unfold mergeTree at h
  obtain ⟨acc₁, ρ, h₁, h⟩ := Planning.run_bind_ok h
  obtain ⟨hm₁, hfits₁⟩ := foldlM_mergeNode_spec root.nodes hm hroots hruns hfits h₁
  have hroot : root.head ∈ heads ++ root.nodes.map (·.head) :=
    List.mem_append_right _ (List.mem_map_of_mem (Node.self_mem_nodes root))
  obtain ⟨hm', hbound⟩ := addRoot_spec hm₁ hroot h
  exact ⟨hm', sumsFit_append_root_iff.2 ⟨hfits₁, hbound⟩⟩

theorem mergeTree_ok {root : Node} (hm : MergeState heads roots acc)
    (hroots : ∀ r ∈ roots, r ∈ heads)
    (hruns : ∀ x ∈ root.nodes, x.head.runs = runsFor x.head.quantity x.head.out)
    (hfits : SumsFit (heads ++ root.nodes.map (·.head)) (roots ++ [root.head])) :
    ∃ r, (mergeTree acc root).run σ = .ok r := by
  obtain ⟨hfits₁, hbound⟩ := sumsFit_append_root_iff.1 hfits
  obtain ⟨⟨acc₁, ρ⟩, h₁⟩ := foldlM_mergeNode_ok root.nodes hm hroots hruns hfits₁ (σ := σ)
  obtain ⟨hm₁, -⟩ := foldlM_mergeNode_spec root.nodes hm hroots hruns hfits₁.of_append_heads h₁
  obtain ⟨res, hres⟩ := addRoot_ok hm₁ hbound (σ := ρ)
  unfold mergeTree
  exact ⟨res, (Planning.run_bind_of_ok h₁).trans hres⟩

theorem foldlM_mergeTree_spec (forest : List Node) (hm : MergeState heads roots acc)
    (hroots : ∀ r ∈ roots, r ∈ heads)
    (hruns : ∀ t ∈ forest, ∀ x ∈ t.nodes, x.head.runs = runsFor x.head.quantity x.head.out)
    (hfits : SumsFit heads roots) (h : (forest.foldlM mergeTree acc).run σ = .ok (acc', τ)) :
    MergeState (heads ++ forest.flatMap fun t => t.nodes.map (·.head))
        (roots ++ forest.map (·.head)) acc' ∧
      SumsFit (heads ++ forest.flatMap fun t => t.nodes.map (·.head))
        (roots ++ forest.map (·.head)) := by
  induction forest generalizing heads roots acc σ with
  | nil => cases h; simpa using ⟨hm, hfits⟩
  | cons t forest ih =>
    rw [List.foldlM_cons] at h
    obtain ⟨acc₁, ρ, h₁, h⟩ := Planning.run_bind_ok h
    obtain ⟨hm₁, hfits₁⟩ := mergeTree_spec hm hroots (hruns t List.mem_cons_self) hfits h₁
    simpa using ih hm₁ (roots_mem_append hroots)
      (fun t' ht' => hruns t' (List.mem_cons_of_mem _ ht')) hfits₁ h

theorem foldlM_mergeTree_ok (forest : List Node) (hm : MergeState heads roots acc)
    (hroots : ∀ r ∈ roots, r ∈ heads)
    (hruns : ∀ t ∈ forest, ∀ x ∈ t.nodes, x.head.runs = runsFor x.head.quantity x.head.out)
    (hfits : SumsFit (heads ++ forest.flatMap fun t => t.nodes.map (·.head))
      (roots ++ forest.map (·.head))) :
    ∃ r, (forest.foldlM mergeTree acc).run σ = .ok r := by
  induction forest generalizing heads roots acc σ with
  | nil => exact ⟨_, rfl⟩
  | cons t forest ih =>
    have hfits' : SumsFit
        ((heads ++ t.nodes.map (·.head)) ++ forest.flatMap fun t => t.nodes.map (·.head))
        ((roots ++ [t.head]) ++ forest.map (·.head)) := by simpa using hfits
    have hfits₁ := hfits'.of_append_heads.of_append_roots
    obtain ⟨⟨acc₁, ρ⟩, h₁⟩ := mergeTree_ok hm hroots (hruns t List.mem_cons_self) hfits₁ (σ := σ)
    obtain ⟨hm₁, -⟩ := mergeTree_spec hm hroots (hruns t List.mem_cons_self)
      hfits₁.of_append_heads.of_append_roots h₁
    obtain ⟨r, hr⟩ := ih hm₁ (roots_mem_append hroots)
      (fun t' ht' => hruns t' (List.mem_cons_of_mem _ ht')) hfits'
    rw [List.foldlM_cons]
    exact ⟨r, (Planning.run_bind_of_ok h₁).trans hr⟩

end Forest

theorem sumsFit_nil : SumsFit [] [] := fun _ => ⟨Nat.pow_pos (by decide), Or.inl (by simp)⟩

/-- Merging a forest fails exactly when one of the sums it forms leaves the counts. -/
theorem ofForest_ok_iff {forest : List Node} {snap : Snapshot} {config : EngineConfig}
    (hruns : ∀ t ∈ forest, ∀ x ∈ t.nodes, x.head.runs = runsFor x.head.quantity x.head.out) :
    (∃ r, (ofForest forest snap config).run σ = .ok r) ↔
      SumsFit (forest.flatMap fun t => t.nodes.map (·.head)) (forest.map (·.head)) := by
  constructor
  · rintro ⟨⟨steps, τ⟩, h⟩
    unfold ofForest at h
    obtain ⟨acc, ρ, hfold, -⟩ := Planning.run_bind_ok h
    simpa using (foldlM_mergeTree_spec forest mergeState_nil (by simp) hruns sumsFit_nil hfold).2
  · intro hfits
    obtain ⟨⟨acc, ρ⟩, hfold⟩ :=
      foldlM_mergeTree_ok forest mergeState_nil (by simp) hruns (by simpa using hfits) (σ := σ)
    unfold ofForest
    rw [Planning.run_bind_of_ok hfold]
    dsimp only
    split
    · obtain ⟨copies, ρ', hcopies⟩ := Planning.mapM_ok (fun _ _ _ => ⟨_, _, rfl⟩) ρ
      exact ⟨_, (Planning.run_bind_of_ok hcopies).trans rfl⟩
    · exact ⟨_, rfl⟩

/-! ### Merging in another order -/

section Perm

variable {heads' roots' : List Expansion} {k : RecipeKey} {s : Step}

theorem quantityOf_perm (h : heads.Perm heads') (k : RecipeKey) :
    quantityOf heads k = quantityOf heads' k :=
  ((h.filter _).map _).sum_eq

theorem rootQuantity_perm (h : roots.Perm roots') (k : RecipeKey) :
    rootQuantity roots k = rootQuantity roots' k :=
  ((h.filter _).map _).sum_eq

theorem Best.perm {b : Expansion} (hh : heads.Perm heads') (hb : Best heads k b) :
    Best heads' k b :=
  ⟨hh.subset hb.1, hb.2.1, fun e he hek => hb.2.2 e (hh.symm.subset he) hek⟩

theorem Tallies.perm (hh : heads.Perm heads') (hr : roots.Perm roots')
    (hs : Tallies heads roots s) : Tallies heads' roots' s where
  quantity := hs.quantity.trans (quantityOf_perm hh _)
  runs := hs.runs
  source := let ⟨e, he, h⟩ := hs.source; ⟨e, hh.subset he, h⟩
  attained := let ⟨e, he, h⟩ := hs.attained; ⟨e, hh.subset he, h⟩
  deepest := fun e he hek => hs.deepest e (hh.symm.subset he) hek
  target := hs.target.trans (rootQuantity_perm hr _)
  plain := hs.plain

theorem Consolidates.perm (hh : heads.Perm heads') (hr : roots.Perm roots')
    (hs : Consolidates heads roots s) : Consolidates heads' roots' s :=
  ⟨hs.tallies.perm hh hr, let ⟨b, hb, ht⟩ := hs.best; ⟨b, hb.perm hh, ht⟩⟩

end Perm

/-- The nodes of each key make one material at one rate with one bonus, and two of them that
rank alike have one time efficiency. -/
def Uniform (heads : List Expansion) : Prop :=
  ∀ e ∈ heads, ∀ e' ∈ heads, e.key = e'.key →
    e.material = e'.material ∧ e.out = e'.out ∧ e.bonus = e'.bonus ∧
      e.bonusMissing = e'.bonusMissing ∧ (e.rank = e'.rank → e.te = e'.te)

theorem Uniform.perm {heads' : List Expansion} (hh : heads.Perm heads') (hu : Uniform heads) :
    Uniform heads' :=
  fun e he e' he' => hu e (hh.symm.subset he) e' (hh.symm.subset he')

/-- Among uniform nodes, what the nodes of a key are fixes their step, but for identifiers. -/
theorem Consolidates.sansIds_eq {s s' : Step} (hu : Uniform heads)
    (hs : Consolidates heads roots s) (hs' : Consolidates heads roots s') (hk : s.key = s'.key) :
    s.sansIds = s'.sansIds := by
  obtain ⟨hg, b, hb, hme, hte, hbonus, hmissing⟩ := hs
  obtain ⟨hg', b', hb', hme', hte', hbonus', hmissing'⟩ := hs'
  obtain ⟨e, he, hek, hprod, hout⟩ := hg.source
  obtain ⟨e', he', hek', hprod', hout'⟩ := hg'.source
  obtain ⟨hmat, hrate, -⟩ := hu e he e' he' (hek.trans (hk.trans hek'.symm))
  -- efficiencies and bonus come from best nodes, which rank alike
  have hrank : b.rank = b'.rank := hb.rank_eq (hk ▸ hb')
  obtain ⟨-, -, hbb, hbm, hbt⟩ := hu b hb.1 b' hb'.1 (hb.2.1.trans (hk.trans hb'.2.1.symm))
  have hdepth : s.depth = s'.depth := by
    obtain ⟨x, hx, hxk, hxd⟩ := hg.attained
    obtain ⟨x', hx', hxk', hxd'⟩ := hg'.attained
    exact le_antisymm (hxd ▸ hg'.deepest x hx (hxk.trans hk))
      (hxd' ▸ hg.deepest x' hx' (hxk'.trans hk.symm))
  have hproduct : s.product = s'.product := hprod.symm.trans (hmat.trans hprod')
  have hrate : s.out = s'.out := hout.symm.trans (hrate.trans hout')
  have hquantity : s.quantity = s'.quantity := by rw [hg.quantity, hg'.quantity, hk]
  have hruns : s.runs = s'.runs := by rw [hg.runs, hg'.runs, hquantity, hrate]
  have htarget : s.target = s'.target := by rw [hg.target, hg'.target, hk]
  have hme : s.me = s'.me := hme.trans ((Expansion.rank_eq_iff.1 hrank).2.trans hme'.symm)
  have hte : s.te = s'.te := hte.trans ((hbt hrank).trans hte'.symm)
  have hbonus : s.bonus = s'.bonus := hbonus.trans (hbb.trans hbonus'.symm)
  have hmissing : s.bonusMissing = s'.bonusMissing := hmissing.trans (hbm.trans hmissing'.symm)
  obtain ⟨hdur, hsplit, hbought, hauto⟩ := hg.plain
  obtain ⟨hdur', hsplit', hbought', hauto'⟩ := hg'.plain
  exact sansIds_eq_of hk hproduct hdepth hquantity hruns hrate htarget hme hte hbonus hmissing
    (hdur.trans hdur'.symm) (hsplit.trans hsplit'.symm) (hbought.trans hbought'.symm)
    (hauto.trans hauto'.symm)

/-! ### The steps of a forest, identifiers forgotten -/

/-- The copy steps planned for some steps, identifiers forgotten. -/
def copiesOf (snap : Snapshot) (config : EngineConfig) (steps : List Step) : List Step :=
  if config.includeCopySteps then
    (steps.filter fun s => s.activity == .build && (snap.duplicateOf s.recipe).isSome).map
      (copyOf (.fresh 0))
  else []

@[simp] theorem sansIds_copyOf (id : Ident) (s : Step) :
    (copyOf id s).sansIds = copyOf (.fresh 0) s := rfl

@[simp] theorem copyOf_sansIds (id : Ident) (s : Step) : copyOf id s.sansIds = copyOf id s := rfl

theorem before_sansIds (a b : Step) : before a.sansIds b.sansIds = before a b := rfl

/-- Sorting commutes with forgetting identifiers, which the order does not read. -/
theorem sortBy_before_sansIds (l : List Step) :
    (sortBy before l).map sansIds = sortBy before (l.map sansIds) := by
  rw [sortBy_map]
  rfl

theorem copiesOf_sansIds (snap : Snapshot) (config : EngineConfig) (steps : List Step) :
    copiesOf snap config (steps.map sansIds) = copiesOf snap config steps := by
  unfold copiesOf
  split
  · simp only [List.filter_map, List.map_map]
    rfl
  · rfl

theorem copiesOf_perm {snap : Snapshot} {config : EngineConfig} {l l' : List Step}
    (h : l.Perm l') : (copiesOf snap config l).Perm (copiesOf snap config l') := by
  unfold copiesOf
  split
  · exact (h.filter _).map _
  · exact .nil

/-- The steps of a forest, identifiers forgotten: the merged records' steps and their copies,
in order. -/
theorem ofForest_sansIds {forest : List Node} {snap : Snapshot} {config : EngineConfig}
    {steps : List Step}
    (hruns : ∀ t ∈ forest, ∀ x ∈ t.nodes, x.head.runs = runsFor x.head.quantity x.head.out)
    (h : (ofForest forest snap config).run σ = .ok (steps, τ)) :
    ∃ acc : List Merging,
      MergeState (forest.flatMap fun t => t.nodes.map (·.head)) (forest.map (·.head)) acc ∧
      steps.map sansIds = sortBy before
        (acc.map (·.step.sansIds) ++ copiesOf snap config (acc.map (·.step.sansIds))) := by
  unfold ofForest at h
  obtain ⟨acc, ρ, hfold, h⟩ := Planning.run_bind_ok h
  refine ⟨acc, by simpa using (foldlM_mergeTree_spec forest mergeState_nil (by simp) hruns
    sumsFit_nil hfold).1, ?_⟩
  have hviews : acc.map (·.step.sansIds) = (acc.map (·.step)).map sansIds := by
    rw [List.map_map]
    rfl
  rw [hviews, copiesOf_sansIds]
  dsimp only at h
  split at h
  · rename_i hcopy
    obtain ⟨copies, ρ', hcopies, h⟩ := Planning.run_bind_ok h
    cases h
    have hrel := Planning.mapM_forall₂ (fun s c : Step => copyOf (.fresh 0) s = c.sansIds) hcopies
      fun s c ρ ρ' _ hc => by
        obtain ⟨id, ρ₁, -, hc⟩ := Planning.run_bind_ok hc
        cases hc
        rfl
    rw [sortBy_before_sansIds, List.map_append, ← map_eq_of_forall₂ hrel, copiesOf, if_pos hcopy]
  · cases h
    rename_i hcopy
    rw [sortBy_before_sansIds, List.map_append, copiesOf, if_neg hcopy]
    rfl

/-! ### The order of the steps -/

theorem before_total (a b : Step) : before a b = true ∨ before b a = true := by
  simp only [before, Bool.or_eq_true, Bool.and_eq_true, decide_eq_true_eq, beq_iff_eq]
  omega

theorem before_trans (a b c : Step) (hab : before a b = true) (hbc : before b c = true) :
    before a c = true := by
  simp only [before, Bool.or_eq_true, Bool.and_eq_true, decide_eq_true_eq, beq_iff_eq] at *
  omega

/-- Steps that each come before the other have one key. -/
theorem key_eq_of_before {a b : Step} (hab : before a b = true) (hba : before b a = true) :
    a.key = b.key := by
  simp only [before, Bool.or_eq_true, Bool.and_eq_true, decide_eq_true_eq, beq_iff_eq] at hab hba
  have hrecipe : a.recipe = b.recipe := by omega
  have hrank : a.activity.rank = b.activity.rank := by omega
  have hactivity : a.activity = b.activity := by
    revert hrank
    cases a.activity <;> cases b.activity <;> decide
  simp [key, hrecipe, hactivity]

/-- The merged steps of distinct keys, none of them a copy step, and their copies have
distinct keys. -/
theorem keys_nodup_copiesOf {snap : Snapshot} {config : EngineConfig} {steps : List Step}
    (hkeys : (steps.map key).Nodup) (hkind : ∀ s ∈ steps, s.activity ≠ .duplicate) :
    ((steps ++ copiesOf snap config steps).map key).Nodup := by
  unfold copiesOf
  split
  · rw [List.map_append, List.nodup_append]
    refine ⟨hkeys, ?_, ?_⟩
    · rw [List.map_map]
      refine List.Nodup.map_on (fun x hx y hy hxy => ?_)
        ((List.Nodup.of_map key hkeys).filter _)
      have hbx := (List.mem_filter.1 hx).2
      have hby := (List.mem_filter.1 hy).2
      simp only [Bool.and_eq_true, beq_iff_eq] at hbx hby
      have hk : x.key = y.key := by
        simp only [Function.comp, copyOf, key, RecipeKey.mk.injEq] at hxy
        simp [key, hxy.1, hbx.1, hby.1]
      exact List.inj_on_of_nodup_map hkeys (List.mem_of_mem_filter hx) (List.mem_of_mem_filter hy)
        hk
    · intro a ha b hb hab
      obtain ⟨s, hs, rfl⟩ := List.mem_map.1 ha
      obtain ⟨c, hc, rfl⟩ := List.mem_map.1 hb
      obtain ⟨s', -, rfl⟩ := List.mem_map.1 hc
      exact hkind s hs (congrArg RecipeKey.activity hab)
  · simpa using hkeys

section Perm

variable {heads' roots' : List Expansion} {acc acc' : List Merging}

theorem MergeState.view_mem (hm : MergeState heads roots acc) (hm' : MergeState heads' roots' acc')
    (hh : heads'.Perm heads) (hr : roots'.Perm roots) (hu : Uniform heads) {v : Step}
    (hv : v ∈ acc'.map (·.step.sansIds)) : v ∈ acc.map (·.step.sansIds) := by
  obtain ⟨m', hm'mem, rfl⟩ := List.mem_map.1 hv
  have hkey : m'.step.key ∈ heads.map (·.key) :=
    (hh.map _).subset ((hm'.exists_record_iff).1 ⟨m', hm'mem, rfl⟩)
  obtain ⟨m, hmem, hk⟩ := (hm.exists_record_iff).2 hkey
  have hcons := ((hm'.records m' hm'mem).step).perm hh hr
  exact List.mem_map.2 ⟨m, hmem, ((hm.records m hmem).step).sansIds_eq hu hcons hk⟩

/-- Two merges of the same nodes, taken in other orders, make the same steps but for
identifiers and order. -/
theorem MergeState.views_perm (hm : MergeState heads roots acc)
    (hm' : MergeState heads' roots' acc') (hh : heads'.Perm heads) (hr : roots'.Perm roots)
    (hu : Uniform heads) : (acc'.map (·.step.sansIds)).Perm (acc.map (·.step.sansIds)) := by
  have hnodup : ∀ {hs rs : List Expansion} {a : List Merging}, MergeState hs rs a →
      (a.map (·.step.sansIds)).Nodup := fun hm => by
    refine List.Nodup.of_map key ?_
    rw [List.map_map]
    exact hm.keys
  rw [List.perm_ext_iff_of_nodup (hnodup hm') (hnodup hm)]
  exact fun v => ⟨hm.view_mem hm' hh hr hu, hm'.view_mem hm hh.symm hr.symm (hu.perm hh.symm)⟩

end Perm

/-- Merging the trees of a forest in another order succeeds or fails alike and makes the same
steps but for identifiers, when the nodes of each key are uniform and none makes a copy. -/
theorem ofForest_agree {forest forest' : List Node} {snap : Snapshot} {config : EngineConfig}
    (hperm : forest'.Perm forest)
    (hruns : ∀ t ∈ forest, ∀ x ∈ t.nodes, x.head.runs = runsFor x.head.quantity x.head.out)
    (hu : Uniform (forest.flatMap fun t => t.nodes.map (·.head)))
    (hkind : ∀ t ∈ forest, ∀ x ∈ t.nodes, x.head.activity ≠ .duplicate) :
    Planning.Agree (fun steps' steps => steps'.map sansIds = steps.map sansIds)
      (ofForest forest' snap config) (ofForest forest snap config) := by
  intro σ' σ
  have hheads : (forest'.flatMap fun t => t.nodes.map (·.head)).Perm
      (forest.flatMap fun t => t.nodes.map (·.head)) := hperm.flatMap_right _
  have hroots : (forest'.map (·.head)).Perm (forest.map (·.head)) := hperm.map _
  have hruns' : ∀ t ∈ forest', ∀ x ∈ t.nodes, x.head.runs = runsFor x.head.quantity x.head.out :=
    fun t ht => hruns t (hperm.subset ht)
  refine ⟨?_, fun steps' τ' steps τ h' h => ?_⟩
  · rw [ofForest_ok_iff hruns', ofForest_ok_iff hruns]
    exact ⟨SumsFit.perm hheads hroots, SumsFit.perm hheads.symm hroots.symm⟩
  · obtain ⟨acc, hm, hsteps⟩ := ofForest_sansIds hruns h
    obtain ⟨acc', hm', hsteps'⟩ := ofForest_sansIds hruns' h'
    have hviews := hm.views_perm hm' hheads hroots hu
    have hkeys : ((acc'.map (·.step.sansIds)).map key).Nodup := by
      rw [List.map_map]
      exact hm'.keys
    have hkind' : ∀ s ∈ acc'.map (·.step.sansIds), s.activity ≠ .duplicate := by
      intro s hs
      obtain ⟨m, hmem, rfl⟩ := List.mem_map.1 hs
      obtain ⟨e, he, hek, -⟩ := (hm'.records m hmem).1.source
      obtain ⟨t, ht, x, hx, rfl⟩ : ∃ t ∈ forest', ∃ x ∈ t.nodes, x.head = e := by
        simpa using he
      have hact : x.head.activity = m.step.activity := congrArg RecipeKey.activity hek
      rw [sansIds_activity, ← hact]
      exact hkind t (hperm.subset ht) x hx
    rw [hsteps, hsteps']
    exact sortBy_eq_of_perm before_total before_trans (hviews.append (copiesOf_perm hviews))
      fun a ha b hb hab hba =>
        List.inj_on_of_nodup_map (keys_nodup_copiesOf hkeys hkind') ha hb (key_eq_of_before hab hba)

end Step

end Fabrication
