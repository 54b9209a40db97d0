import Fabrication.Proofs.Quantity
import Fabrication.Proofs.Tree.Expand

/-!
# An expanded tree unfolds the dependency graph

A snapshot makes the materials into a graph: an edge leads from a material to each input of its
producer that is not excluded and has a producer of its own (`Node.Feeds`), and expanding a
material expands the other end of each edge one level deeper. Expanding a target succeeds
exactly when every walk from the target has at most `maxDepth` edges (`Node.expand_ok_iff`):
that is, when the graph reached from the target has no cycle and no path longer than the
limit. A path past the limit is refused by the depth check; a cycle gives walks of every
length, and the expansion refuses it on coming back to a material on its path, since the
path is a walk from the target to the material being expanded.

On success the tree is the unfolding of that graph: every node runs its material's producer,
in as many runs as its quantity needs and with the snapshot's bonus, and its requirements are
the producer's inputs in order, each in the quantity its base amount comes to for those runs
and made, where the graph has an edge, by a node one level deeper (`Node.Unfolded`).
-/

namespace Fabrication

namespace Node

section Graph

variable (snap : Snapshot) (excluded : List Nat)

/-- An edge of the dependency graph: `b` is an input of the producer of `a` that is not
excluded and has a producer of its own. -/
def Feeds (a b : Nat) : Prop :=
  ∃ R, snap.producerOf a = some R ∧ (∃ p ∈ R.inputs, p.material = b) ∧ b ∉ excluded ∧
    (snap.producerOf b).isSome

/-- `Reaches a b k`: a walk of `k` edges leads from `a` to `b`. -/
inductive Reaches : Nat → Nat → Nat → Prop
  | refl (a : Nat) : Reaches a a 0
  | step {a b c k : Nat} : Feeds snap excluded a b → Reaches b c k → Reaches a c (k + 1)

/-- Every walk from `root` has at most `limit` edges: the graph reached from `root` has no
cycle and no path longer than `limit`. -/
def WalksWithin (root limit : Nat) : Prop := ∀ b k, Reaches snap excluded root b k → k ≤ limit

variable {snap excluded}

theorem Reaches.trans {a b c k l : Nat} (hab : Reaches snap excluded a b k)
    (hbc : Reaches snap excluded b c l) : Reaches snap excluded a c (k + l) := by
  induction hab with
  | refl => simpa using hbc
  | step hfeed _ ih =>
    rw [Nat.add_right_comm]
    exact .step hfeed (ih hbc)

theorem Reaches.snoc {a b c k : Nat} (hab : Reaches snap excluded a b k)
    (hbc : Feeds snap excluded b c) : Reaches snap excluded a c (k + 1) :=
  hab.trans (.step hbc (.refl c))

/-- Going round a cycle `n` more times. -/
theorem Reaches.pump {a x k l : Nat} (hax : Reaches snap excluded a x k)
    (hxx : Reaches snap excluded x x l) (n : Nat) : Reaches snap excluded a x (k + n * l) := by
  induction n with
  | zero => simpa using hax
  | succ n ih =>
    rw [Nat.succ_mul, ← Nat.add_assoc]
    exact ih.trans hxx

/-- A material that reaches one with a producer has a producer itself. -/
theorem Reaches.producer {a b k : Nat} (hab : Reaches snap excluded a b k)
    (hb : (snap.producerOf b).isSome) : (snap.producerOf a).isSome := by
  cases hab with
  | refl => exact hb
  | step hfeed _ =>
    obtain ⟨R, hR, -⟩ := hfeed
    simp [hR]

/-- A cycle reached from the root gives walks of every length, so none lies within a limit. -/
theorem WalksWithin.no_cycle {root limit x k l : Nat} (hwalks : WalksWithin snap excluded root limit)
    (hx : Reaches snap excluded root x k) (hcycle : Reaches snap excluded x x l) (hl : 0 < l) :
    False := by
  have hlong := hwalks x _ (hx.pump hcycle (limit + 1))
  have hge : limit + 1 ≤ (limit + 1) * l := Nat.le_mul_of_pos_right _ hl
  omega

variable (snap excluded) in
/-- A path of expansion down to `material`: every member, the material included, is reached
from the root and reaches the material. -/
def PathTo (root : Nat) (path : List Nat) (material : Nat) : Prop :=
  ∀ x ∈ path ++ [material], ∃ i j, Reaches snap excluded root x i ∧
    Reaches snap excluded x material j

theorem PathTo.start (root : Nat) : PathTo snap excluded root [] root := by
  intro x hx
  obtain rfl := List.mem_singleton.1 hx
  exact ⟨0, 0, .refl _, .refl _⟩

/-- Expanding along an edge extends the path by the material just expanded. -/
theorem PathTo.extend {root material b : Nat} {path : List Nat}
    (hpath : PathTo snap excluded root path material) (hfeed : Feeds snap excluded material b) :
    PathTo snap excluded root (path ++ [material]) b := by
  intro x hx
  rcases List.mem_append.1 hx with hx | hx
  · obtain ⟨i, j, hi, hj⟩ := hpath x hx
    exact ⟨i, j + 1, hi, hj.snoc hfeed⟩
  · obtain rfl := List.mem_singleton.1 hx
    obtain ⟨i, -, hi, -⟩ := hpath material (by simp)
    exact ⟨i + 1, 0, hi.snoc hfeed, .refl _⟩

end Graph

section Expansion

variable {snap : Snapshot} {config : EngineConfig} {excluded : List Nat}

variable (snap config excluded) in
/-- What the expansion of a node at `depth` with `levels` levels left makes of one input `p` of
its recipe, for `runs` runs with material efficiency `me` and material bonus `bonus`, below
the materials of `path` (the node's own included): the input and its base amount, needed in the
quantity those runs come to; excluded when the input is excluded, and otherwise off the path,
raw without a producer, or made by the expansion of its producer one level deeper. -/
def InputExpansion (levels depth runs me : Nat) (activity : Activity) (bonus : Decimal)
    (path : List Nat) (p : Portion) (r : Requirement Node) : Prop :=
  r.material = p.material ∧ r.base = p.quantity ∧
    requiredQuantity p.quantity runs activity me bonus = .ok r.quantity ∧
    (p.material ∈ excluded → r.source = .excluded) ∧
    (p.material ∉ excluded → p.material ∉ path ∧
      (snap.producerOf p.material = none → r.source = .raw) ∧
      ∀ C, snap.producerOf p.material = some C → ∃ c, r.source = .made c ∧
        expandWith snap config excluded levels C p.material r.quantity (depth + 1)
          (config.childMaterialEfficiency C.activity.isConversion) config.childTimeEfficiency
          path = .ok c)

/-- One level of expansion: the node's head is made from its recipe, quantity and the
snapshot's bonus, and each requirement is what the expansion makes of its input. -/
theorem expandWith_succ {levels : Nat} {recipe : Recipe} {material quantity depth me te : Nat}
    {path : List Nat} {n : Node}
    (h : expandWith snap config excluded (levels + 1) recipe material quantity depth me te path =
      .ok n) :
    n.head = ⟨material, recipe.id, recipe.activity, quantity,
        runsFor quantity (Nat.max ((recipe.outputPerRun material).getD 1) 1),
        Nat.max ((recipe.outputPerRun material).getD 1) 1, depth, me, te,
        (snap.bonusFor material recipe.activity.isConversion).getD Bonus.none,
        (snap.bonusFor material recipe.activity.isConversion).isNone⟩ ∧
      List.Forall₂ (InputExpansion snap config excluded levels depth
        (runsFor quantity (Nat.max ((recipe.outputPerRun material).getD 1) 1)) me recipe.activity
        ((snap.bonusFor material recipe.activity.isConversion).getD Bonus.none).material
        (path ++ [material])) recipe.inputs n.reqs := by
  rw [expandWith] at h
  obtain ⟨reqs, hreqs, h⟩ := ok_of_bind h
  cases h
  refine ⟨rfl, mapM_forall₂ _ hreqs fun p r _ hp => ?_⟩
  obtain ⟨required, hreq, hp⟩ := ok_of_bind hp
  have hreq := ok_of_ofFault hreq
  dsimp only at hp
  split at hp
  · rename_i hex
    cases hp
    exact ⟨rfl, rfl, hreq, fun _ => rfl, fun hx => absurd (List.elem_iff.1 hex) hx⟩
  · rename_i hex
    have hx : p.material ∉ excluded := fun hx => hex (List.elem_iff.2 hx)
    split at hp
    · cases hp
    · rename_i hpath
      have hoff : p.material ∉ path ++ [material] := fun hin => hpath (List.elem_iff.2 hin)
      split at hp
      · rename_i hnone
        cases hp
        exact ⟨rfl, rfl, hreq, fun hx' => absurd hx' hx,
          fun _ => ⟨hoff, fun _ => rfl, fun C hC => by rw [hnone] at hC; cases hC⟩⟩
      · rename_i child hchild
        obtain ⟨source, hsource, hp⟩ := ok_of_bind hp
        cases hp
        obtain ⟨c, hc, rfl⟩ := ok_of_map hsource
        refine ⟨rfl, rfl, hreq, fun hx' => absurd hx' hx,
          fun _ => ⟨hoff, (fun hnone => by rw [hchild] at hnone; cases hnone), fun C hC => ?_⟩⟩
        rw [hchild] at hC
        cases hC
        exact ⟨c, rfl, hc⟩

theorem expandWith_efficiencies {levels : Nat} {recipe : Recipe}
    {material quantity depth me te : Nat} {path : List Nat} {n : Node}
    (h : expandWith snap config excluded levels recipe material quantity depth me te path = .ok n) :
    n.head.me = me ∧ n.head.te = te := by
  cases levels with
  | zero => cases h
  | succ levels => rw [(expandWith_succ h).1]; exact ⟨rfl, rfl⟩

/-- A successful expansion with `levels` levels left has no walk of `levels` edges or more
from its material: each edge is expanded one level deeper, and no level is left at the end. -/
theorem lt_of_expandWith {levels : Nat} {recipe : Recipe} {material quantity depth me te : Nat}
    {path : List Nat} {n : Node}
    (h : expandWith snap config excluded levels recipe material quantity depth me te path = .ok n)
    (hR : snap.producerOf material = some recipe) {b k : Nat}
    (hwalk : Reaches snap excluded material b k) : k < levels := by
  induction hwalk generalizing levels recipe quantity depth me te path n with
  | refl =>
    cases levels with
    | zero => cases h
    | succ levels => omega
  | step hfeed _ ih =>
    cases levels with
    | zero => cases h
    | succ levels =>
      obtain ⟨-, hreqs⟩ := expandWith_succ h
      obtain ⟨R, hR', ⟨p, hp, rfl⟩, hx, hprod⟩ := hfeed
      rw [hR] at hR'
      cases hR'
      obtain ⟨r, -, -, -, -, -, hmade⟩ := exists_of_forall₂ hreqs hp
      obtain ⟨C, hC⟩ := Option.isSome_iff_exists.1 hprod
      obtain ⟨c, -, hc⟩ := (hmade hx).2.2 C hC
      have := ih hc hC
      omega

theorem bonusFor_inRange (hbonus : ∀ m c b, snap.bonusFor m c = some b → b.material.InRange)
    (m : Nat) (c : Bool) : ((snap.bonusFor m c).getD Bonus.none).material.InRange := by
  cases hb : snap.bonusFor m c with
  | none => exact ⟨by decide, by decide⟩
  | some b => exact hbonus m c b hb

/-- Within the limit, the expansion succeeds. Every member of the path below which a material
is expanded reaches the material, so an input on the path would close a cycle, which no walk
within the limit allows; and the levels left match the depth, which no walk within the limit
exceeds. -/
theorem expandWith_ok_of_walks {root limit : Nat} (hwalks : WalksWithin snap excluded root limit)
    (hchild : ∀ b, config.childMaterialEfficiency b < Decimal.mantissaBound)
    (hbonus : ∀ m c b, snap.bonusFor m c = some b → b.material.InRange) (levels : Nat) :
    ∀ {recipe : Recipe} {material quantity depth me te : Nat} {path : List Nat},
      snap.producerOf material = some recipe → levels + depth = limit + 1 →
      Reaches snap excluded root material depth → PathTo snap excluded root path material →
      me < Decimal.mantissaBound →
      ∃ n, expandWith snap config excluded levels recipe material quantity depth me te path =
        .ok n := by
  induction levels with
  | zero =>
    intro recipe material quantity depth me te path _ hlevels hdepth _ _
    have := hwalks _ _ hdepth
    omega
  | succ levels ih =>
    intro recipe material quantity depth me te path hR hlevels hdepth hpath hme
    rw [expandWith]
    dsimp only
    apply exists_bind_mapM_ok _ fun _ => ⟨_, rfl⟩
    intro p hp
    obtain ⟨q, hq⟩ := requiredQuantity_ok p.quantity
      (runsFor quantity (Nat.max ((recipe.outputPerRun material).getD 1) 1)) recipe.activity hme
      (bonusFor_inRange hbonus material recipe.activity.isConversion)
    rw [hq, show Outcome.ofFault (Except.ok q) = (pure q : Outcome Nat) from rfl, pure_bind]
    split
    · exact ⟨_, rfl⟩
    rename_i hex
    have hx : p.material ∉ excluded := fun hx => hex (List.elem_iff.2 hx)
    split
    · rename_i hon
      obtain ⟨i, j, hi, hj⟩ := hpath p.material (List.elem_iff.1 hon)
      have hfeed : Feeds snap excluded material p.material :=
        ⟨recipe, hR, ⟨p, hp, rfl⟩, hx, hj.producer (by simp [hR])⟩
      exact (hwalks.no_cycle hi (hj.snoc hfeed) (Nat.succ_pos j)).elim
    split
    · exact ⟨_, rfl⟩
    · rename_i C hC
      have hfeed : Feeds snap excluded material p.material :=
        ⟨recipe, hR, ⟨p, hp, rfl⟩, hx, by simp [hC]⟩
      obtain ⟨c, hc⟩ := ih hC (by omega) (hdepth.snoc hfeed) (hpath.extend hfeed) (hchild _)
      rw [hc]
      exact ⟨_, rfl⟩

variable (snap config excluded) in
/-- Where a requirement for `quantity` of `material` at a node of depth `depth` comes from, as
the graph has it: excluded when the material is excluded; else made, by a node one level deeper
that makes that quantity of the material with the producer's child efficiencies; else, the
material having no producer, raw. -/
def SourceFits (depth material quantity : Nat) : Supply Node → Prop
  | .excluded => material ∈ excluded
  | .raw => material ∉ excluded ∧ snap.producerOf material = none
  | .made c => material ∉ excluded ∧ ∃ C, snap.producerOf material = some C ∧
      c.head.material = material ∧ c.head.depth = depth + 1 ∧ c.head.quantity = quantity ∧
      c.head.me = config.childMaterialEfficiency C.activity.isConversion ∧
      c.head.te = config.childTimeEfficiency

variable (snap config excluded) in
/-- A node of the unfolding: it runs its material's producer, at least one unit a run, in as
many runs as its quantity needs, with the snapshot's bonus for the material (missing when there
is none); its requirements are the producer's inputs in order, each with its base amount,
needed in the quantity that amount comes to for the node's runs with the node's material
efficiency and bonus, and supplied as the graph has it. -/
def Unfolded (x : Node) : Prop :=
  ∃ R, snap.producerOf x.head.material = some R ∧ x.head.recipe = R.id ∧
    x.head.activity = R.activity ∧
    x.head.out = Nat.max ((R.outputPerRun x.head.material).getD 1) 1 ∧
    x.head.runs = runsFor x.head.quantity x.head.out ∧
    x.head.bonus = (snap.bonusFor x.head.material R.activity.isConversion).getD Bonus.none ∧
    x.head.bonusMissing = (snap.bonusFor x.head.material R.activity.isConversion).isNone ∧
    List.Forall₂ (fun p r => r.material = p.material ∧ r.base = p.quantity ∧
        requiredQuantity p.quantity x.head.runs R.activity x.head.me x.head.bonus.material =
          .ok r.quantity ∧
        SourceFits snap config excluded x.head.depth p.material r.quantity r.source)
      R.inputs x.reqs

/-- What the expansion makes of an input is supplied as the graph has it. -/
theorem InputExpansion.sourceFits {levels depth runs me : Nat} {activity : Activity}
    {bonus : Decimal} {path : List Nat} {p : Portion} {r : Requirement Node}
    (h : InputExpansion snap config excluded levels depth runs me activity bonus path p r) :
    SourceFits snap config excluded depth p.material r.quantity r.source := by
  obtain ⟨-, -, -, hex, hnot⟩ := h
  by_cases hx : p.material ∈ excluded
  · rw [hex hx]
    exact hx
  obtain ⟨-, hraw, hmade⟩ := hnot hx
  cases hC : snap.producerOf p.material with
  | none =>
    rw [hraw hC]
    exact ⟨hx, hC⟩
  | some C =>
    obtain ⟨c, hsrc, hc⟩ := hmade C hC
    obtain ⟨hmat, -, -, hq, hd⟩ := expandWith_head hc
    obtain ⟨hme, hte⟩ := expandWith_efficiencies hc
    rw [hsrc]
    exact ⟨hx, C, hC, hmat, hd, hq, hme, hte⟩

/-- A requirement that the expansion makes is made by the expansion of its input's producer
one level deeper. -/
theorem InputExpansion.made {levels depth runs me : Nat} {activity : Activity}
    {bonus : Decimal} {path : List Nat} {p : Portion} {r : Requirement Node} {c : Node}
    (h : InputExpansion snap config excluded levels depth runs me activity bonus path p r)
    (hc : r.source = .made c) :
    ∃ C, snap.producerOf p.material = some C ∧
      expandWith snap config excluded levels C p.material r.quantity (depth + 1)
        (config.childMaterialEfficiency C.activity.isConversion) config.childTimeEfficiency
        path = .ok c := by
  obtain ⟨-, -, -, hex, hnot⟩ := h
  by_cases hx : p.material ∈ excluded
  · rw [hex hx] at hc
    cases hc
  obtain ⟨-, hraw, hmade⟩ := hnot hx
  cases hC : snap.producerOf p.material with
  | none =>
    rw [hraw hC] at hc
    cases hc
  | some C =>
    obtain ⟨c', hsrc, hc'⟩ := hmade C hC
    rw [hsrc] at hc
    cases hc
    exact ⟨C, rfl, hc'⟩

/-- Every node of a tree expanded from a material's producer is a node of the unfolding. -/
theorem expandWith_unfolded {levels : Nat} {recipe : Recipe}
    {material quantity depth me te : Nat} {path : List Nat} {n : Node}
    (h : expandWith snap config excluded levels recipe material quantity depth me te path = .ok n)
    (hR : snap.producerOf material = some recipe) :
    ∀ x ∈ n.nodes, Unfolded snap config excluded x := by
  induction levels generalizing recipe material quantity depth me te path n with
  | zero => cases h
  | succ levels ih =>
    obtain ⟨hhead, hreqs⟩ := expandWith_succ h
    have hrel : List.Forall₂ (fun (p : Portion) (r : Requirement Node) =>
        ∀ c, r.source = .made c → ∀ x ∈ c.nodes, Unfolded snap config excluded x)
        recipe.inputs n.reqs :=
      hreqs.imp fun p r hpr c hc => by
        obtain ⟨C, hC, hc'⟩ := hpr.made hc
        exact ih hc' hC
    cases n with
    | mk head rs =>
    change head = _ at hhead
    subst hhead
    intro x hx
    rw [nodes_mk] at hx
    rcases List.mem_cons.1 hx with rfl | hx
    · exact ⟨recipe, hR, rfl, rfl, rfl, rfl, rfl, rfl,
        hreqs.imp fun p r hpr => ⟨hpr.1, hpr.2.1, hpr.2.2.1, hpr.sourceFits⟩⟩
    · obtain ⟨r, hr, c, hc, hxc⟩ := mem_nodesOf.1 hx
      obtain ⟨p, -, hsub⟩ := exists_of_forall₂_right hrel hr
      exact hsub c hc x hxc

/-- Every node of the trees of a request's targets is a node of the unfolding. -/
theorem expandAll_unfolded {targets : List Target} {forest : List Node}
    (h : expandAll snap config excluded targets = .ok forest) :
    ∀ t ∈ forest, ∀ x ∈ t.nodes, Unfolded snap config excluded x := by
  intro t ht
  have hrel := mapM_forall₂ (fun g t => expand snap config excluded g = .ok t) h
    fun _ _ _ hg => hg
  obtain ⟨g, -, hg⟩ := exists_of_forall₂_right hrel ht
  unfold expand at hg
  split at hg
  · cases hg
  · rename_i recipe hrecipe
    exact expandWith_unfolded hg hrecipe

end Expansion

/-- A valid configuration gives children material efficiencies of at most a hundred percent. -/
theorem childMaterialEfficiency_le_of_validate {config : EngineConfig}
    (h : config.validate = .ok ()) (conversion : Bool) :
    config.childMaterialEfficiency conversion ≤ 100 := by
  unfold EngineConfig.validate at h
  dsimp only at h
  generalize hfind : List.find? _ _ = found at h
  cases found with
  | some e =>
    obtain ⟨field, v⟩ := e
    cases h
  | none =>
    have hall := List.find?_eq_none.1 hfind
    unfold EngineConfig.childMaterialEfficiency
    cases conversion
    · simpa using hall ("child_build_efficiency", config.childBuildEfficiency) (by simp)
    · simpa using hall ("child_convert_efficiency", config.childConvertEfficiency) (by simp)

/-- Expanding a target whose material has a producer, under a valid configuration, with a
material efficiency that is a byte and the snapshot's bonuses in range, succeeds exactly when
every walk of the dependency graph from the target has at most `maxDepth` edges, that is when
the graph reached from the target is acyclic with no path longer than the limit. The tree it
then gives is the graph's unfolding: the root is the target, at depth zero with its quantity and
efficiencies, and every node is a node of the unfolding. -/
theorem expand_ok_iff {snap : Snapshot} {config : EngineConfig} {excluded : List Nat} {t : Target}
    (hprod : (snap.producerOf t.material).isSome) (hconfig : config.validate = .ok ())
    (hme : t.me < 256) (hbonus : ∀ m c b, snap.bonusFor m c = some b → b.material.InRange) :
    ((∃ n, expand snap config excluded t = .ok n) ↔
        WalksWithin snap excluded t.material config.maxDepth) ∧
      ∀ n, expand snap config excluded t = .ok n →
        n.head.material = t.material ∧ n.head.depth = 0 ∧ n.head.quantity = t.quantity ∧
          n.head.me = t.me ∧ n.head.te = t.te ∧ ∀ x ∈ n.nodes, Unfolded snap config excluded x := by
  obtain ⟨recipe, hR⟩ := Option.isSome_iff_exists.1 hprod
  have hexpand : expand snap config excluded t = expandWith snap config excluded
      (config.maxDepth + 1) recipe t.material t.quantity 0 t.me t.te [] := by
    unfold expand
    rw [hR]
  have hbyte : (256 : Nat) ≤ Decimal.mantissaBound := by
    rw [Decimal.mantissaBound_eq]
    omega
  rw [hexpand]
  refine ⟨⟨fun ⟨n, hn⟩ b k hwalk => ?_, fun hwalks => ?_⟩, fun n hn => ?_⟩
  · have := lt_of_expandWith hn hR hwalk
    omega
  · refine expandWith_ok_of_walks hwalks (fun b => ?_) hbonus _ hR (by omega) (.refl _)
      (.start _) (by omega)
    have := childMaterialEfficiency_le_of_validate hconfig b
    omega
  · obtain ⟨hmat, -, -, hq, hd⟩ := expandWith_head hn
    obtain ⟨hme', hte'⟩ := expandWith_efficiencies hn
    exact ⟨hmat, hd, hq, hme', hte', expandWith_unfolded hn hR⟩

/-- A chain of builds: `1` from two `2`, and `2` from three `3`, which has no producer. -/
def chainSnapshot : Snapshot :=
  { book := ⟨[⟨1, .build, [⟨2, 2⟩], [⟨1, 1⟩], 0⟩, ⟨2, .build, [⟨3, 3⟩], [⟨2, 1⟩], 0⟩]⟩,
    producers := [(1, ⟨1, .build⟩), (2, ⟨2, .build⟩)] }

/-- Four `1` at material efficiency `5` on the chain: the conditions hold, so the expansion
succeeds exactly when the chain's walks stay within the default depth limit, and unfolds it. -/
theorem expand_ok_iff_chain :
    (chainSnapshot.producerOf 1).isSome ∧ ({} : EngineConfig).validate = .ok () ∧ 5 < 256 ∧
      (∀ m c b, chainSnapshot.bonusFor m c = some b → b.material.InRange) ∧
      (((∃ n, expand chainSnapshot {} [] { material := 1, quantity := 4, me := 5 } = .ok n) ↔
          WalksWithin chainSnapshot [] 1 ({} : EngineConfig).maxDepth) ∧
        ∀ n, expand chainSnapshot {} [] { material := 1, quantity := 4, me := 5 } = .ok n →
          n.head.material = 1 ∧ n.head.depth = 0 ∧ n.head.quantity = 4 ∧ n.head.me = 5 ∧
            n.head.te = 0 ∧ ∀ x ∈ n.nodes, Unfolded chainSnapshot {} [] x) := by
  have hprod : (chainSnapshot.producerOf 1).isSome := by decide
  have hconfig : ({} : EngineConfig).validate = .ok () := by decide
  have hbonus : ∀ m c b, chainSnapshot.bonusFor m c = some b → b.material.InRange := by
    intro m c b hb
    simp [Snapshot.bonusFor, chainSnapshot, lastValue?] at hb
  exact ⟨hprod, hconfig, by decide, hbonus,
    expand_ok_iff (t := { material := 1, quantity := 4, me := 5 }) hprod hconfig (by decide) hbonus⟩

end Node

end Fabrication
