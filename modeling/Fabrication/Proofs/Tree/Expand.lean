import Fabrication.Proofs.Outcome
import Fabrication.Tree.Expand

/-!
# What an expanded tree is made of

Every node of an expanded tree runs its material's producer, and every input of that
producer which is neither excluded nor without a producer of its own is made by a node one
level deeper (`Node.Expanded`). This holds of every node of every tree that the expansion of
a request's targets returns (`expandAll_expanded`), whose roots are the targets themselves
at depth zero (`expand_head`). A node takes its efficiencies from its target at the root and
from the configuration below it (`expand_nodes_efficiencies`).
-/

namespace Fabrication

namespace Node

theorem nodes_mk (h : Expansion) (rs : List (Requirement Node)) :
    (mk h rs).nodes = mk h rs :: nodesOf rs := by
  rw [nodes]

theorem mem_nodesOf {x : Node} {rs : List (Requirement Node)} :
    x ∈ nodesOf rs ↔ ∃ r ∈ rs, ∃ c, r.source = .made c ∧ x ∈ c.nodes := by
  induction rs with
  | nil => simp [nodesOf]
  | cons r rs ih =>
    obtain ⟨m, b, q, s⟩ := r
    cases s <;> simp [nodesOf, ih]

theorem self_mem_nodes (n : Node) : n ∈ n.nodes := by
  cases n with
  | mk h rs => rw [nodes_mk]; exact List.mem_cons_self

/-- A node of a tree that runs its material's producer, and whose producer's inputs, unless
excluded or without a producer, are made one level deeper by nodes of `tree`. -/
def Expanded (snap : Snapshot) (excluded : List Nat) (tree : List Node) (x : Node) : Prop :=
  ∃ R, snap.producerOf x.head.material = some R ∧ x.head.recipe = R.id ∧
    x.head.activity = R.activity ∧
    ∀ p ∈ R.inputs, p.material ∉ excluded → (snap.producerOf p.material).isSome →
      ∃ y ∈ tree, y.head.material = p.material ∧ y.head.depth = x.head.depth + 1

theorem Expanded.mono {snap : Snapshot} {excluded : List Nat} {tree tree' : List Node} {x : Node}
    (h : Expanded snap excluded tree x) (hsub : tree ⊆ tree') : Expanded snap excluded tree' x := by
  obtain ⟨R, hR, hid, hact, hin⟩ := h
  refine ⟨R, hR, hid, hact, fun p hp hx hprod => ?_⟩
  obtain ⟨y, hy, hmat, hdepth⟩ := hin p hp hx hprod
  exact ⟨y, hsub hy, hmat, hdepth⟩

variable {snap : Snapshot} {config : EngineConfig} {excluded : List Nat}

theorem expandWith_head {levels : Nat} {recipe : Recipe} {material quantity depth me te : Nat}
    {path : List Nat} {n : Node}
    (h : expandWith snap config excluded levels recipe material quantity depth me te path = .ok n) :
    n.head.material = material ∧ n.head.recipe = recipe.id ∧ n.head.activity = recipe.activity ∧
      n.head.quantity = quantity ∧ n.head.depth = depth := by
  cases levels with
  | zero => cases h
  | succ levels =>
    rw [expandWith] at h
    obtain ⟨reqs, -, h⟩ := ok_of_bind h
    cases h
    exact ⟨rfl, rfl, rfl, rfl, rfl⟩

/-- Every node of a tree expanded from a material's producer is expanded. -/
theorem expandWith_expanded {levels : Nat} {recipe : Recipe} {material quantity depth me te : Nat}
    {path : List Nat} {n : Node}
    (h : expandWith snap config excluded levels recipe material quantity depth me te path = .ok n)
    (hR : snap.producerOf material = some recipe) :
    ∀ x ∈ n.nodes, Expanded snap excluded n.nodes x := by
  induction levels generalizing recipe material quantity depth me te path n with
  | zero => cases h
  | succ levels ih =>
    rw [expandWith] at h
    obtain ⟨reqs, hreqs, h⟩ := ok_of_bind h
    cases h
    -- each requirement is made, when it can be, by an expanded tree one level deeper
    have hrel := mapM_forall₂ (fun (p : Portion) (r : Requirement Node) =>
        (p.material ∉ excluded → (snap.producerOf p.material).isSome →
          ∃ c, r.source = .made c ∧ c.head.material = p.material ∧ c.head.depth = depth + 1) ∧
        ∀ c, r.source = .made c → ∀ x ∈ c.nodes, Expanded snap excluded c.nodes x) hreqs
      (fun p r _ hp => by
        obtain ⟨required, -, hp⟩ := ok_of_bind hp
        dsimp only at hp
        split at hp
        · rename_i hex
          cases hp
          exact ⟨fun hx => absurd (List.elem_iff.1 hex) hx, fun c hc => by cases hc⟩
        · split at hp
          · cases hp
          · split at hp
            · rename_i hnone
              cases hp
              exact ⟨fun _ hsome => by simp [hnone] at hsome, fun c hc => by cases hc⟩
            · rename_i child hchild
              obtain ⟨source, hsource, hp⟩ := ok_of_bind hp
              cases hp
              obtain ⟨c, hc, rfl⟩ := ok_of_map hsource
              have hhead := expandWith_head hc
              exact ⟨fun _ _ => ⟨c, rfl, hhead.1, hhead.2.2.2.2⟩,
                fun c' hc' => by cases hc'; exact ih hc hchild⟩)
    intro x hx
    rw [nodes_mk] at hx ⊢
    rcases List.mem_cons.1 hx with rfl | hx
    · refine ⟨recipe, hR, rfl, rfl, fun p hp hex hprod => ?_⟩
      obtain ⟨r, hr, hmade, -⟩ := exists_of_forall₂ hrel hp
      obtain ⟨c, hc, hmat, hdepth⟩ := hmade hex hprod
      exact ⟨c, List.mem_cons_of_mem _ (mem_nodesOf.2 ⟨r, hr, c, hc, self_mem_nodes c⟩), hmat,
        hdepth⟩
    · obtain ⟨r, hr, c, hc, hxc⟩ := mem_nodesOf.1 hx
      obtain ⟨p, -, -, hsub⟩ := exists_of_forall₂_right hrel hr
      refine (hsub c hc x hxc).mono fun y hy => ?_
      exact List.mem_cons_of_mem _ (mem_nodesOf.2 ⟨r, hr, c, hc, hy⟩)

theorem expand_head {t : Target} {n : Node} (h : expand snap config excluded t = .ok n) :
    n.head.material = t.material ∧ n.head.quantity = t.quantity ∧ n.head.depth = 0 := by
  unfold expand at h
  split at h
  · cases h
  · obtain ⟨hmat, -, -, hq, hd⟩ := expandWith_head h
    exact ⟨hmat, hq, hd⟩

theorem expand_expanded {t : Target} {n : Node} (h : expand snap config excluded t = .ok n) :
    ∀ x ∈ n.nodes, Expanded snap excluded n.nodes x := by
  unfold expand at h
  split at h
  · cases h
  · rename_i recipe hrecipe
    exact expandWith_expanded h hrecipe

/-- The trees of a request's targets: one per target, rooted at the target, every node of
each expanded within its tree. -/
theorem expandAll_expanded {targets : List Target} {forest : List Node}
    (h : expandAll snap config excluded targets = .ok forest) :
    List.Forall₂ (fun (t : Target) (n : Node) =>
      (n.head.material = t.material ∧ n.head.quantity = t.quantity ∧ n.head.depth = 0) ∧
        ∀ x ∈ n.nodes, Expanded snap excluded n.nodes x) targets forest :=
  mapM_forall₂ _ h fun _ _ _ hn => ⟨expand_head hn, expand_expanded hn⟩

/-- The efficiencies of the nodes of an expanded tree: the root keeps the material, producer
and efficiencies it was expanded with, and every deeper node has the configured child
efficiencies. -/
theorem expandWith_nodes_efficiencies {levels : Nat} {recipe : Recipe}
    {material quantity depth me te : Nat} {path : List Nat} {n : Node}
    (h : expandWith snap config excluded levels recipe material quantity depth me te path = .ok n) :
    ∀ x ∈ n.nodes,
      (x.head.depth = depth ∧ x.head.material = material ∧ x.head.activity = recipe.activity ∧
          x.head.me = me ∧ x.head.te = te) ∨
        (depth < x.head.depth ∧
          x.head.me = config.childMaterialEfficiency x.head.activity.isConversion ∧
          x.head.te = config.childTimeEfficiency) := by
  induction levels generalizing recipe material quantity depth me te path n with
  | zero => cases h
  | succ levels ih =>
    rw [expandWith] at h
    obtain ⟨reqs, hreqs, h⟩ := ok_of_bind h
    cases h
    have hrel := mapM_forall₂ (fun (_ : Portion) (r : Requirement Node) =>
        ∀ c, r.source = .made c → ∀ x ∈ c.nodes, depth < x.head.depth ∧
          x.head.me = config.childMaterialEfficiency x.head.activity.isConversion ∧
          x.head.te = config.childTimeEfficiency) hreqs
      (fun p r _ hp => by
        obtain ⟨required, -, hp⟩ := ok_of_bind hp
        dsimp only at hp
        split at hp
        · cases hp
          intro c hc
          cases hc
        · split at hp
          · cases hp
          · split at hp
            · cases hp
              intro c hc
              cases hc
            · rename_i child hchild
              obtain ⟨source, hsource, hp⟩ := ok_of_bind hp
              cases hp
              obtain ⟨c, hc, rfl⟩ := ok_of_map hsource
              intro c' hc' x hx
              cases hc'
              rcases ih hc x hx with ⟨hd, -, hact, hme, hte⟩ | ⟨hd, hme, hte⟩
              · exact ⟨by omega, hact ▸ hme, hte⟩
              · exact ⟨by omega, hme, hte⟩)
    intro x hx
    rw [nodes_mk] at hx
    rcases List.mem_cons.1 hx with rfl | hx
    · exact .inl ⟨rfl, rfl, rfl, rfl, rfl⟩
    · obtain ⟨r, hr, c, hc, hxc⟩ := mem_nodesOf.1 hx
      obtain ⟨p, -, hsub⟩ := exists_of_forall₂_right hrel hr
      exact .inr (hsub c hc x hxc)

/-- In the tree of a target, the nodes at depth zero take the target's material and
efficiencies, and all others the configured child efficiencies. -/
theorem expand_nodes_efficiencies {t : Target} {n : Node}
    (h : expand snap config excluded t = .ok n) :
    ∀ x ∈ n.nodes,
      (x.head.depth = 0 ∧ x.head.material = t.material ∧ x.head.me = t.me ∧ x.head.te = t.te) ∨
        (0 < x.head.depth ∧
          x.head.me = config.childMaterialEfficiency x.head.activity.isConversion ∧
          x.head.te = config.childTimeEfficiency) := by
  unfold expand at h
  split at h
  · cases h
  · intro x hx
    rcases expandWith_nodes_efficiencies h x hx with ⟨hd, hmat, -, hme, hte⟩ | hbelow
    · exact .inl ⟨hd, hmat, hme, hte⟩
    · exact .inr hbelow

end Node

end Fabrication
