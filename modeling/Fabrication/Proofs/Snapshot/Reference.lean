import Fabrication.Proofs.Snapshot.Levels
import Fabrication.Proofs.Tree.Expand
import Fabrication.Proofs.Tree.Lookups
import Mathlib.Logic.Basic

/-!
# A loaded snapshot answers as the catalogue does

A snapshot is read in batches, level by level, and then answers an expansion's questions on
its own. The reference answers the same questions one material at a time: the producer the
catalogue chooses for the material, and the user's bonus for it or else the best one the
resolver finds (`Snapshot.reference`).

When the catalogue holds one recipe per key, expanding a root over the loaded snapshot gives
the same tree or error as expanding it over the reference, and every build of the tree has
the catalogue's duplicate recipe as its copy (`load_agrees_with_reference`). Loading fails
only where the resolver fails for a material it is asked about. Both hypotheses are needed:
with two duplicate recipes of one key the book keeps the later one, and a resolver that fails
for a material below the depth limit fails the load although the expansion stops before it
asks (`load_departs_from_reference`).

The proof: `readLevels_covers` gives that every material within `maxDepth + 1` feeding steps
of a root has its chosen producer; copies add only duplicate keys, and bonuses are found for
every producer; an expansion with `maxDepth + 1` levels asks nothing further out
(`agreeBelow_of_near`).
-/

namespace Fabrication

namespace RecipeBook

/-- Putting a recipe in keeps every key the book has. -/
theorem exists_key_insert {b : RecipeBook} {r : Recipe} {k : RecipeKey}
    (h : ∃ x ∈ b.recipes, x.key = k) : ∃ x ∈ (b.insert r).recipes, x.key = k := by
  obtain ⟨x, hx, rfl⟩ := h
  unfold insert
  split
  · refine ⟨if x.key == r.key then r else x, List.mem_map_of_mem hx, ?_⟩
    by_cases hxr : x.key = r.key <;> simp [hxr]
  · exact ⟨x, List.mem_append_left _ hx, rfl⟩

/-- After recipes are put in, the book has a recipe of each of their keys. -/
theorem exists_key_insertAll {b : RecipeBook} {rs : List Recipe} {r : Recipe} (hr : r ∈ rs) :
    ∃ x ∈ (b.insertAll rs).recipes, x.key = r.key := by
  induction rs generalizing b with
  | nil => cases hr
  | cons r₀ rs ih =>
    simp only [insertAll, List.foldl_cons] at ih ⊢
    rcases List.mem_cons.1 hr with rfl | hr
    · have hin : ∃ x ∈ (b.insert r).recipes, x.key = r.key :=
        ⟨r, (key_of_get? (get?_insert_self b r)).2, rfl⟩
      exact foldl_invariant (fun b' : RecipeBook => ∃ x ∈ b'.recipes, x.key = r.key) hin
        fun _ _ _ h => exists_key_insert h
    · exact ih hr

end RecipeBook

namespace Catalog

theorem key_mem_of_findRecipes {c : Catalog} {keys : List RecipeKey} {r : Recipe}
    (h : r ∈ c.findRecipes keys) : r.key ∈ keys := by
  unfold findRecipes at h
  split at h
  · simpa using (List.mem_filter.1 h).2
  · obtain ⟨k, hk, hr⟩ := List.mem_filterMap.1 h
    have hrk : r.key = k := by simpa using List.find?_some hr
    rwa [hrk]

theorem mem_findRecipes {c : Catalog} {keys : List RecipeKey} {k : RecipeKey} {r : Recipe}
    (hk : k ∈ keys) (hr : c.findRecipe k = some r) : r ∈ c.findRecipes keys := by
  have hrk : r.key = k := by simpa using List.find?_some hr
  unfold findRecipes
  split
  · exact List.mem_filter.2 ⟨List.mem_of_find?_eq_some hr, by simpa [hrk] using hk⟩
  · exact List.mem_filterMap.2 ⟨k, hk, hr⟩

end Catalog

namespace Snapshot

/-- The answers of the catalogue and the resolver, asked one material at a time: the producer
the catalogue chooses, and the user's bonus for the material or else the best bonus the
resolver finds, none where the resolver fails. -/
def reference (c : Catalog) (res : Resolver) (req : SnapshotRequest) : Lookups where
  producerOf := c.chosen
  bonusFor m isConversion :=
    match lastValue? req.overrides m with
    | some b => some b
    | none =>
      match res.bestBonus m isConversion req.user with
      | .ok b => b
      | .error _ => none

/-- The snapshot of a request's levels, before copies and bonuses. -/
def levelsOf (c : Catalog) (req : SnapshotRequest) (config : EngineConfig) : Snapshot :=
  readLevels c req.excluded (config.maxDepth + 2) { overrides := req.overrides }
    (ascendingSet req.roots) (ascendingSet req.roots)

variable {c : Catalog} {res : Resolver} {req : SnapshotRequest} {config : EngineConfig}

theorem levelsOf_inv :
    LevelInv c req.excluded { overrides := req.overrides } (ascendingSet req.roots)
      (ascendingSet req.roots) where
  within _ hr := by cases hr
  sound _ _ hk := by simp [lastValue?] at hk
  pending _ hm := .inl hm
  queued x _ hx hfeeds := by
    obtain ⟨r, hr, -⟩ := hfeeds
    rcases hx with hx | hx
    · simp [lastValue?] at hx
    · rw [hr] at hx
      cases hx

/-- Every material within `maxDepth + 1` feeding steps of a root is asked by the levels read,
and the producers read are the ones the catalogue chooses. -/
theorem levelsOf_covers (hkeys : (c.recipes.map (·.key)).Nodup) :
    Sound c (levelsOf c req config) ∧ ∀ k m, k ≤ config.maxDepth + 1 →
      Catalog.Near c req.excluded (· ∈ req.roots) k m → Asked c (levelsOf c req config) m := by
  obtain ⟨-, hsound, -, hcover⟩ := readLevels_covers hkeys (config.maxDepth + 2) levelsOf_inv
  refine ⟨hsound, fun k m hk hnear => hcover k m (by omega) (hnear.mono fun x hx => ?_)⟩
  exact .inl (mem_ascendingSet.2 hx)

theorem readCopies_producers (s : Snapshot) : (readCopies c s).producers = s.producers := by
  unfold readCopies
  dsimp only
  split <;> rfl

theorem readCopies_overrides (s : Snapshot) : (readCopies c s).overrides = s.overrides := by
  unfold readCopies
  dsimp only
  split <;> rfl

theorem readCopies_bonuses (s : Snapshot) : (readCopies c s).bonuses = s.bonuses := by
  unfold readCopies
  dsimp only
  split <;> rfl

/-- A recipe fetched as a copy has the duplicate activity. -/
theorem duplicate_of_mem_copies {s : Snapshot} {r : Recipe}
    (h : r ∈ c.findRecipes ((s.book.recipes.filter (·.activity == .build)).map
      fun r => RecipeKey.mk r.id .duplicate)) : r.activity = .duplicate := by
  obtain ⟨x, -, hx⟩ := List.mem_map.1 (Catalog.key_mem_of_findRecipes h)
  exact (congrArg RecipeKey.activity hx).symm

/-- The copies fetched are duplicates, whose keys no producer has. -/
theorem Sound.readCopies {s : Snapshot} (hs : Sound c s) : Sound c (readCopies c s) := by
  intro m k hk
  rw [readCopies_producers] at hk
  obtain ⟨r, hr, hkey, hget⟩ := hs m k hk
  refine ⟨r, hr, hkey, ?_⟩
  unfold Snapshot.readCopies
  dsimp only
  split
  · exact hget
  · rw [RecipeBook.get?_insertAll_of_ne _ fun r' hr' heq => ?_]
    · exact hget
    have hdup : r.activity = .duplicate := by
      have hsame : r.activity = r'.activity := congrArg RecipeKey.activity (hkey.trans heq.symm)
      rw [hsame, duplicate_of_mem_copies hr']
    have hkind := chooseProducer_kind hr
    rw [hdup] at hkind
    exact absurd hkind (by decide)

theorem Sound.transfer {s s' : Snapshot} (hs : Sound c s) (hp : s'.producers = s.producers)
    (hb : s'.book = s.book) : Sound c s' := by
  intro m k hk
  rw [hp] at hk
  rw [hb]
  exact hs m k hk

theorem Asked.transfer {s s' : Snapshot} {m : Nat} (h : Asked c s m)
    (hp : s'.producers = s.producers) : Asked c s' m := by
  unfold Asked at h ⊢
  rw [hp]
  exact h

/-- A snapshot holding, for each build recipe of its book, a recipe of the build's duplicate
key whenever the catalogue has one. -/
def Copied (c : Catalog) (s : Snapshot) : Prop :=
  ∀ R ∈ s.book.recipes, R.activity = .build → ∀ D, c.findRecipe ⟨R.id, .duplicate⟩ = some D →
    (s.book.get? ⟨R.id, .duplicate⟩).isSome

theorem readCopies_copied (s : Snapshot) : Copied c (readCopies c s) := by
  intro R hR hbuild D hD
  have hasked : ∀ R ∈ s.book.recipes, R.activity = .build →
      (⟨R.id, .duplicate⟩ : RecipeKey) ∈ (s.book.recipes.filter (·.activity == .build)).map
        fun r => RecipeKey.mk r.id .duplicate :=
    fun R hR hbuild => List.mem_map.2 ⟨R, List.mem_filter.2 ⟨hR, by simp [hbuild]⟩, rfl⟩
  unfold Snapshot.readCopies at hR ⊢
  dsimp only at hR ⊢
  split_ifs at hR ⊢ with hempty
  · have hk := hasked R hR hbuild
    rw [List.isEmpty_iff.1 hempty] at hk
    cases hk
  · rcases RecipeBook.mem_insertAll hR with hR | hR
    · rw [duplicate_of_mem_copies hR] at hbuild
      cases hbuild
    · have hDk : D.key = ⟨R.id, .duplicate⟩ := by simpa using List.find?_some hD
      obtain ⟨x, hx, hxk⟩ :=
        RecipeBook.exists_key_insertAll (b := s.book) (Catalog.mem_findRecipes (hasked R hR hbuild) hD)
      exact List.find?_isSome.2 ⟨x, hx, by simp [hxk, hDk]⟩

theorem Copied.transfer {s s' : Snapshot} (h : Copied c s) (hb : s'.book = s.book) :
    Copied c s' := by
  intro R hR
  rw [hb] at hR ⊢
  exact h R hR

/-- With one recipe per key, the copy of a build recipe that a snapshot holds is the
catalogue's duplicate recipe, none where the catalogue has none. -/
theorem duplicateOf_eq (hkeys : (c.recipes.map (·.key)).Nodup) {s : Snapshot} (hw : Within c s)
    (hcop : Copied c s) {R : Recipe} (hR : R ∈ s.book.recipes) (hb : R.activity = .build) :
    s.duplicateOf R.id = c.findRecipe ⟨R.id, .duplicate⟩ := by
  unfold duplicateOf
  cases hget : s.book.get? ⟨R.id, .duplicate⟩ with
  | some D => exact (findRecipe_of_get? hkeys hw hget).symm
  | none =>
    cases hfind : c.findRecipe ⟨R.id, .duplicate⟩ with
    | none => rfl
    | some D =>
      have := hcop R hR hb D hfind
      rw [hget] at this
      cases this

theorem readLevel_keeps (excluded : List Nat) (s : Snapshot) (frontier seen : List Nat) :
    (readLevel c excluded s frontier seen).1.overrides = s.overrides ∧
      (readLevel c excluded s frontier seen).1.bonuses = s.bonuses := by
  unfold readLevel
  refine foldl_invariant (fun (acc : Snapshot × List Nat × List Nat) =>
    acc.1.overrides = s.overrides ∧ acc.1.bonuses = s.bonuses) ⟨rfl, rfl⟩ ?_
  rintro ⟨snap, next, seen'⟩ m - hacc
  dsimp only
  split
  · exact hacc
  · exact hacc

theorem readLevels_keeps (excluded : List Nat) :
    ∀ (n : Nat) (s : Snapshot) (frontier seen : List Nat),
      (readLevels c excluded n s frontier seen).overrides = s.overrides ∧
        (readLevels c excluded n s frontier seen).bonuses = s.bonuses
  | 0, _, _, _ => ⟨rfl, rfl⟩
  | n + 1, s, frontier, seen => by
    unfold readLevels
    split
    · exact ⟨rfl, rfl⟩
    · obtain ⟨h1, h2⟩ := readLevel_keeps excluded s frontier seen
      rcases hrl : readLevel c excluded s frontier seen with ⟨s₁, next, seen₁⟩
      rw [hrl] at h1 h2
      obtain ⟨h3, h4⟩ := readLevels_keeps excluded n s₁ (sortBy (· ≤ ·) next) seen₁
      exact ⟨h3.trans h1, h4.trans h2⟩

/-- The snapshot a request prepares before its bonuses are looked up. -/
def prepared (c : Catalog) (req : SnapshotRequest) (config : EngineConfig) : Snapshot :=
  if config.includeCopySteps then readCopies c (levelsOf c req config) else levelsOf c req config

theorem load_eq (c : Catalog) (res : Resolver) (req : SnapshotRequest) (config : EngineConfig) :
    load c res req config = readBonuses res req.user (prepared c req config) := rfl

theorem prepared_keeps :
    (prepared c req config).overrides = req.overrides ∧ (prepared c req config).bonuses = [] := by
  have h := readLevels_keeps (c := c) req.excluded (config.maxDepth + 2)
    { overrides := req.overrides } (ascendingSet req.roots) (ascendingSet req.roots)
  unfold prepared
  split
  · rw [readCopies_overrides, readCopies_bonuses]
    exact h
  · exact h

theorem prepared_sound (hkeys : (c.recipes.map (·.key)).Nodup) :
    Sound c (prepared c req config) := by
  unfold prepared
  split
  · exact (levelsOf_covers hkeys).1.readCopies
  · exact (levelsOf_covers hkeys).1

theorem prepared_asked (hkeys : (c.recipes.map (·.key)).Nodup) {k m : Nat}
    (hk : k ≤ config.maxDepth + 1) (hnear : Catalog.Near c req.excluded (· ∈ req.roots) k m) :
    Asked c (prepared c req config) m := by
  have h := (levelsOf_covers hkeys).2 k m hk hnear
  unfold prepared
  split
  · exact h.transfer (readCopies_producers _)
  · exact h

theorem readBonuses_overrides {user : Nat} {s s' : Snapshot} (h : readBonuses res user s = .ok s') :
    s'.overrides = s.overrides := by
  unfold readBonuses at h
  refine foldlM_invariant (fun snap : Snapshot => snap.overrides = s.overrides) h rfl ?_
  rintro snap ⟨m, conv⟩ snap' - hov hstep
  obtain ⟨b, -, hstep⟩ := ok_of_bind hstep
  split at hstep <;> cases hstep <;> exact hov

theorem mem_of_lastValue? {α : Type} {es : List (Nat × α)} {x : Nat} {v : α}
    (h : lastValue? es x = some v) : (x, v) ∈ es := by
  obtain ⟨e, he, rfl⟩ := Option.map_eq_some_iff.1 h
  have hx : e.1 = x := by simpa using List.find?_some he
  rw [← hx]
  exact List.mem_reverse.1 (List.mem_of_find?_eq_some he)

/-- `lookup_putEntry` for the bonus table, whose keys are compared field by field. -/
theorem lookup_putBonus (k x : Nat × Bool) (v : Bonus) (es : List ((Nat × Bool) × Bonus)) :
    ((putEntry k v es).find? (·.1 == x)).map (·.2) =
      if x = k then some v else (es.find? (·.1 == x)).map (·.2) := by
  rw [lawful_beq_subsingleton instBEqProd instBEqOfDecidableEq]
  exact lookup_putEntry k x v es

/-- Every bonus a snapshot holds is the resolver's best for its material and activity. -/
def BonusesFound (res : Resolver) (user : Nat) (s : Snapshot) : Prop :=
  ∀ w b, (s.bonuses.find? (·.1 == w)).map (·.2) = some b → res.bestBonus w.1 w.2 user = .ok (some b)

/-- Looking up bonuses finds, for every producer without a bonus given by the user, what the
resolver answers. -/
theorem readBonuses_found {user : Nat} {s s' : Snapshot} (h : readBonuses res user s = .ok s')
    (hs : s.bonuses = []) {m : Nat} {k : RecipeKey} (hk : lastValue? s.producers m = some k)
    (hnone : lastValue? s.overrides m = none) :
    ∃ b, res.bestBonus m k.activity.isConversion user = .ok b ∧
      (s'.bonuses.find? (·.1 == (m, k.activity.isConversion))).map (·.2) = b := by
  unfold readBonuses at h
  -- the bonuses held stay the resolver's; each material's own turn finds its bonus, and a
  -- later turn of the same material finds the same one
  refine foldlM_establish (BonusesFound res user) (fun w (snap : Snapshot) =>
      ∃ b, res.bestBonus w.1 w.2 user = .ok b ∧ (snap.bonuses.find? (·.1 == w)).map (·.2) = b)
    h (by simp [BonusesFound, hs]) ?_ ?_ ?_ _ ((mem_sortBy _).2 (List.mem_map.2
      ⟨(m, k), List.mem_filter.2 ⟨mem_of_lastValue? hk, by simp [hnone]⟩, rfl⟩))
  · rintro snap ⟨x, conv⟩ snap' - hfound hstep
    obtain ⟨b?, hb, hstep⟩ := ok_of_bind hstep
    cases b? with
    | none =>
      cases hstep
      exact hfound
    | some b =>
      cases hstep
      intro w b' hw
      dsimp only at hw
      rw [lookup_putBonus] at hw
      split at hw
      · rename_i hwx
        subst hwx
        cases hw
        exact hb
      · exact hfound w b' hw
  · rintro snap ⟨x, conv⟩ snap' - hfound hstep
    obtain ⟨b?, hb, hstep⟩ := ok_of_bind hstep
    refine ⟨b?, hb, ?_⟩
    cases b? with
    | none =>
      cases hstep
      cases hl : (snap.bonuses.find? (·.1 == (x, conv))).map (·.2) with
      | none => rfl
      | some b' =>
        have hfb := hfound _ b' hl
        rw [hb] at hfb
        cases hfb
    | some b =>
      cases hstep
      simp [lookup_putBonus]
  · rintro snap w ⟨x, conv⟩ snap' - - ⟨b, hb, hlook⟩ hstep
    obtain ⟨b?, hb', hstep⟩ := ok_of_bind hstep
    refine ⟨b, hb, ?_⟩
    cases b? with
    | none =>
      cases hstep
      exact hlook
    | some b' =>
      cases hstep
      rw [lookup_putBonus]
      split
      · rename_i hwx
        subst hwx
        dsimp only at hb
        rw [hb'] at hb
        cases hb
        rfl
      · exact hlook

variable {S : Snapshot}

/-- A loaded snapshot gives every material within `maxDepth + 1` feeding steps of a root the
producer the catalogue chooses. -/
theorem producerOf_near (hkeys : (c.recipes.map (·.key)).Nodup) (h : load c res req config = .ok S)
    {k m : Nat} (hk : k ≤ config.maxDepth + 1)
    (hnear : Catalog.Near c req.excluded (· ∈ req.roots) k m) : S.producerOf m = c.chosen m := by
  rw [load_eq] at h
  have hsound : Sound c S :=
    (prepared_sound hkeys).transfer (readBonuses_producers h) (readBonuses_book h)
  exact producerOf_of_asked hsound ((prepared_asked hkeys hk hnear).transfer (readBonuses_producers h))

/-- A loaded snapshot gives every producer's material the reference's bonus. -/
theorem bonusFor_loaded (h : load c res req config = .ok S) {m : Nat} {r : Recipe}
    (hr : S.producerOf m = some r) :
    S.bonusFor m r.activity.isConversion = (reference c res req).bonusFor m r.activity.isConversion := by
  rw [load_eq] at h
  rw [producerOf_eq] at hr
  obtain ⟨k, hk, hget⟩ := Option.bind_eq_some_iff.1 hr
  have hact : r.activity = k.activity := congrArg RecipeKey.activity (RecipeBook.key_of_get? hget).1
  have hov : S.overrides = req.overrides := (readBonuses_overrides h).trans prepared_keeps.1
  unfold bonusFor reference
  dsimp only
  rw [hov]
  cases ho : lastValue? req.overrides m with
  | some b => rfl
  | none =>
    rw [readBonuses_producers h] at hk
    obtain ⟨b, hb, hlook⟩ :=
      readBonuses_found h prepared_keeps.2 hk (by rw [prepared_keeps.1]; exact ho)
    rw [hact, hb]
    exact hlook

/-- Where the snapshot agrees with the reference on producers and bonuses near the roots, an
expansion from `k` feeding steps out with `n` levels left asks only what they agree on. -/
theorem agreeBelow_of_near {U : Nat → Prop} {D : Nat}
    (hprod : ∀ k m, k ≤ D → Catalog.Near c req.excluded U k m → S.producerOf m = c.chosen m)
    (hbonus : ∀ m r, S.producerOf m = some r → S.bonusFor m r.activity.isConversion =
      (reference c res req).bonusFor m r.activity.isConversion) :
    ∀ n k x r, k + n ≤ D → Catalog.Near c req.excluded U k x → c.chosen x = some r →
      Node.AgreeBelow S.lookups (reference c res req) req.excluded n r x
  | 0, _, _, _, _, _, _ => trivial
  | n + 1, k, x, r, hk, hx, hr => by
    have hfeeds : ∀ p ∈ r.inputs, req.excluded.contains p.material = false →
        Catalog.Near c req.excluded U (k + 1) p.material :=
      fun p hp hex => .inr ⟨x, hx, r, hr, ⟨p, hp, rfl⟩, by simpa using hex⟩
    refine ⟨hbonus x r ((hprod k x (by omega) hx).trans hr), fun p hp hex =>
      ⟨hprod (k + 1) p.material (by omega) (hfeeds p hp hex), fun child hchild => ?_⟩⟩
    exact agreeBelow_of_near hprod hbonus n (k + 1) p.material child (by omega)
      (hfeeds p hp hex) hchild

/-- Loading fails only where the resolver fails. -/
theorem load_error {f : Fault} (h : load c res req config = .error f) :
    ∃ m conv, res.bestBonus m conv req.user = .error f := by
  rw [load_eq] at h
  unfold readBonuses at h
  obtain ⟨⟨m, conv⟩, -, snap, hstep⟩ := error_of_foldlM h
  refine ⟨m, conv, ?_⟩
  rcases error_of_bind hstep with hb | ⟨b?, -, hput⟩
  · exact hb
  · cases b? <;> cases hput

/-- A root expands over a loaded snapshot as over the reference. -/
theorem expand_loaded (hkeys : (c.recipes.map (·.key)).Nodup) (h : load c res req config = .ok S)
    {t : Target} (ht : t.material ∈ req.roots) :
    Node.expand S config req.excluded t = Node.expandOf (reference c res req) config req.excluded t := by
  have hprod : ∀ k m, k ≤ config.maxDepth + 1 → Catalog.Near c req.excluded (· ∈ req.roots) k m →
      S.producerOf m = c.chosen m := fun k m hk hnear => producerOf_near hkeys h hk hnear
  rw [Node.expand_eq_expandOf]
  unfold Node.expandOf
  have h0 : S.lookups.producerOf t.material = c.chosen t.material := hprod 0 t.material (by omega) ht
  rw [h0]
  dsimp only [reference]
  cases hr : c.chosen t.material with
  | none => rfl
  | some r =>
    exact Node.expandBy_congr (agreeBelow_of_near hprod (fun m r hr => bonusFor_loaded h hr)
      (config.maxDepth + 1) 0 t.material r (by omega) ht hr) _ _ _ _ _

/-- With copy steps planned, every build of a tree expanded over a loaded snapshot has the
catalogue's duplicate recipe as its copy. -/
theorem duplicateOf_loaded (hkeys : (c.recipes.map (·.key)).Nodup)
    (h : load c res req config = .ok S) (hcopy : config.includeCopySteps = true) {t : Target}
    {tree : Node} (htree : Node.expand S config req.excluded t = .ok tree) {n : Node}
    (hn : n ∈ tree.nodes) (hbuild : n.head.activity = .build) :
    S.duplicateOf n.head.recipe = c.findRecipe ⟨n.head.recipe, .duplicate⟩ := by
  obtain ⟨R, hR, hid, hact, -⟩ := Node.expand_expanded htree n hn
  have hRin : R ∈ S.book.recipes := (RecipeBook.key_of_get? (get?_of_producerOf hR)).2
  have hcopied : Copied c S := by
    have hprep : Copied c (prepared c req config) := by
      unfold prepared
      rw [if_pos hcopy]
      exact readCopies_copied _
    exact hprep.transfer (readBonuses_book h)
  rw [hid]
  exact duplicateOf_eq hkeys (load_within h) hcopied hRin (hact.symm.trans hbuild)

/-- With one recipe per key in the catalogue, loading fails only where the resolver fails for
a material, and a loaded snapshot answers every expansion of a root as the reference does:
the same tree or the same error, with the catalogue's duplicate recipe as the copy of every
build of the tree when copy steps are planned. -/
theorem load_agrees_with_reference (hkeys : (c.recipes.map (·.key)).Nodup) :
    (∀ f, load c res req config = .error f → ∃ m conv, res.bestBonus m conv req.user = .error f) ∧
      ∀ S, load c res req config = .ok S → ∀ t : Target, t.material ∈ req.roots →
        Node.expand S config req.excluded t =
            Node.expandOf (reference c res req) config req.excluded t ∧
          (config.includeCopySteps = true → ∀ tree, Node.expand S config req.excluded t = .ok tree →
            ∀ n ∈ tree.nodes, n.head.activity = .build →
              S.duplicateOf n.head.recipe = c.findRecipe ⟨n.head.recipe, .duplicate⟩) :=
  ⟨fun _ hf => load_error hf, fun _ hS _ ht =>
    ⟨expand_loaded hkeys hS ht, fun hcopy _ htree _ hn hbuild =>
      duplicateOf_loaded hkeys hS hcopy htree hn hbuild⟩⟩

/-- Two builds in a chain, the top one with a duplicate recipe. -/
def chainCatalog : Catalog where
  recipes := [⟨1, .build, [⟨2, 3⟩], [⟨1, 1⟩], 60⟩, ⟨2, .build, [⟨3, 2⟩], [⟨2, 1⟩], 60⟩,
    ⟨1, .duplicate, [], [], 30⟩]

theorem load_agrees_with_reference_chain :
    (chainCatalog.recipes.map (·.key)).Nodup ∧ ∃ S tree,
      load chainCatalog {} { roots := [1] } {} = .ok S ∧
      Node.expand S {} [] ⟨1, 4, 0, 0⟩ = .ok tree ∧
      Node.expandOf (reference chainCatalog {} { roots := [1] }) {} [] ⟨1, 4, 0, 0⟩ = .ok tree ∧
      tree.head.activity = .build ∧
      S.duplicateOf tree.head.recipe = chainCatalog.findRecipe ⟨tree.head.recipe, .duplicate⟩ := by
  have hkeys : (chainCatalog.recipes.map (·.key)).Nodup := by decide
  obtain ⟨S, hS⟩ : ∃ S, load chainCatalog {} { roots := [1] } {} = .ok S := ⟨_, rfl⟩
  obtain ⟨tree, href, hbuild⟩ : ∃ tree,
      Node.expandOf (reference chainCatalog {} { roots := [1] }) {} [] ⟨1, 4, 0, 0⟩ = .ok tree ∧
        tree.head.activity = .build := ⟨_, rfl, rfl⟩
  obtain ⟨hexp, hcopy⟩ := (load_agrees_with_reference hkeys).2 S hS ⟨1, 4, 0, 0⟩ (by decide)
  have htree := hexp.trans href
  exact ⟨hkeys, S, tree, hS, htree, href, hbuild,
    hcopy rfl tree htree tree (Node.self_mem_nodes tree) hbuild⟩

/-- A build with two duplicate recipes of its key. -/
def twinCopies : Catalog where
  recipes := [⟨1, .build, [], [⟨10, 1⟩], 0⟩, ⟨1, .duplicate, [], [], 100⟩,
    ⟨1, .duplicate, [], [], 200⟩]

/-- Three builds in a chain. -/
def deepChain : Catalog where
  recipes := [⟨1, .build, [⟨2, 1⟩], [⟨1, 1⟩], 0⟩, ⟨2, .build, [⟨3, 1⟩], [⟨2, 1⟩], 0⟩,
    ⟨3, .build, [⟨4, 1⟩], [⟨3, 1⟩], 0⟩]

/-- A facility rule for building material 3 whose stacked factor overflows. -/
def overflowingRule : FacilityRule :=
  ⟨.build, some [3], ⟨false, 70000000000000000000000000000, 0⟩, Decimal.zero⟩

/-- User 1 has one facility with the overflowing rule twice. -/
def overflowingResolver : Resolver where
  registries := [(1, ⟨[⟨7, "", [overflowingRule, overflowingRule]⟩]⟩)]

/-- Without one recipe per key the book keeps the later duplicate, so the copy of a build of
the tree is not the catalogue's; and a resolver that fails for a material the expansion never
reaches fails the load, while the reference expansion stops at the depth limit. -/
theorem load_departs_from_reference :
    (∃ S tree, load twinCopies {} { roots := [10] } {} = .ok S ∧
      Node.expand S {} [] ⟨10, 1, 0, 0⟩ = .ok tree ∧ tree.head.activity = .build ∧
      tree.head.recipe = 1 ∧ S.duplicateOf 1 = some ⟨1, .duplicate, [], [], 200⟩ ∧
      twinCopies.findRecipe ⟨1, .duplicate⟩ = some ⟨1, .duplicate, [], [], 100⟩) ∧
    load deepChain overflowingResolver { user := 1, roots := [1] } { maxDepth := 1 } =
      .error .decimalMulOverflow ∧
    Node.expandOf (reference deepChain overflowingResolver { user := 1, roots := [1] })
      { maxDepth := 1 } [] ⟨1, 1, 0, 0⟩ = .error (.rejected (.depthExceeded 1)) :=
  ⟨⟨_, _, rfl, rfl, rfl, rfl, rfl, rfl⟩, rfl, rfl⟩

end Snapshot

end Fabrication
