import Fabrication.Proofs.Outcome
import Fabrication.Proofs.Table
import Fabrication.Snapshot
import Mathlib.Data.List.Nodup

/-!
# Where a snapshot's recipes come from

Every recipe that a snapshot's book holds was read from the catalogue: producers of the
levels, duplicates of the build recipes, and nothing else (`load_within`). A material's
producer is the book's recipe for the producer's own key (`get?_of_producerOf`). So when the
catalogue holds one recipe per key, the book and the catalogue agree on every key the book
knows (`findRecipe_of_get?`).
-/

namespace Fabrication

namespace RecipeBook

theorem key_of_get? {b : RecipeBook} {k : RecipeKey} {r : Recipe} (h : b.get? k = some r) :
    r.key = k ∧ r ∈ b.recipes :=
  ⟨by simpa using List.find?_some h, List.mem_of_find?_eq_some h⟩

theorem mem_insert {b : RecipeBook} {r x : Recipe} (h : x ∈ (b.insert r).recipes) :
    x = r ∨ x ∈ b.recipes := by
  unfold insert at h
  split at h
  · obtain ⟨y, hy, rfl⟩ := List.mem_map.1 h
    split
    · exact .inl rfl
    · exact .inr hy
  · simpa [or_comm] using h

theorem mem_insertAll {b : RecipeBook} {rs : List Recipe} {x : Recipe}
    (h : x ∈ (b.insertAll rs).recipes) : x ∈ rs ∨ x ∈ b.recipes := by
  induction rs generalizing b with
  | nil => exact .inr h
  | cons r rs ih =>
    rcases ih h with hx | hx
    · exact .inl (List.mem_cons_of_mem _ hx)
    · rcases mem_insert hx with rfl | hx
      · exact .inl List.mem_cons_self
      · exact .inr hx

end RecipeBook

theorem mem_of_chooseProducer {rs : List Recipe} {r : Recipe} (h : chooseProducer rs = some r) :
    r ∈ rs := by
  unfold chooseProducer at h
  dsimp only at h
  -- the best so far is always one of the recipes seen
  refine foldl_invariant (fun best : Option Recipe => ∀ b, best = some b → b ∈ rs)
    (fun _ h => by cases h) ?_ r h
  intro best a ha hbest b hb
  have ha' : a ∈ rs := (List.mem_filter.1 ha).1
  cases best with
  | none => cases hb; exact ha'
  | some c =>
    have hba : b = a ∨ b = c := by
      dsimp only at hb
      split_ifs at hb <;> simp_all
    rcases hba with rfl | rfl
    · exact ha'
    · exact hbest _ rfl

/-- The chosen producer is of a producing kind. -/
theorem chooseProducer_kind {rs : List Recipe} {r : Recipe} (h : chooseProducer rs = some r) :
    producingKinds.contains r.activity = true := by
  have h' : chooseProducer (rs.filter fun r => producingKinds.contains r.activity) = some r := by
    rw [← h]
    simp only [chooseProducer, List.filter_filter, Bool.and_self]
  exact (List.mem_filter.1 (mem_of_chooseProducer h')).2

namespace Catalog

theorem mem_of_findProducers {c : Catalog} {ms : List Nat} {kinds : List Activity}
    {e : Nat × List Recipe} (he : e ∈ c.findProducers ms kinds) : ∀ r ∈ e.2, r ∈ c.recipes := by
  obtain ⟨m, -, hm⟩ := List.mem_filterMap.1 he
  intro r hr
  cases hfp : c.findProducer m kinds with
  | nil => simp [hfp] at hm
  | cons r0 rs0 =>
    simp only [hfp, Option.some.injEq] at hm
    subst hm
    have : r ∈ c.findProducer m kinds := by rw [hfp]; exact hr
    exact (List.mem_filter.1 ((mem_sortBy _).1 this)).1

theorem mem_of_findRecipes {c : Catalog} {keys : List RecipeKey} {r : Recipe}
    (h : r ∈ c.findRecipes keys) : r ∈ c.recipes := by
  unfold findRecipes at h
  split at h
  · exact (List.mem_filter.1 h).1
  · obtain ⟨k, -, hk⟩ := List.mem_filterMap.1 h
    exact List.mem_of_find?_eq_some hk

end Catalog

namespace Snapshot

/-- A snapshot whose book holds only recipes of a catalogue. -/
def Within (c : Catalog) (s : Snapshot) : Prop := ∀ r ∈ s.book.recipes, r ∈ c.recipes

variable {c : Catalog}

theorem readLevel_within {excluded frontier seen : List Nat} {s : Snapshot} (hs : Within c s) :
    Within c (readLevel c excluded s frontier seen).1 := by
  unfold readLevel
  refine foldl_invariant (fun (acc : Snapshot × List Nat × List Nat) => Within c acc.1) hs ?_
  rintro ⟨snap, next, seen⟩ m - hacc
  dsimp only
  split
  · exact hacc
  · rename_i r hr
    obtain ⟨rs, hfind, hchoose⟩ := Option.bind_eq_some_iff.1 hr
    obtain ⟨e, he, rfl⟩ := Option.map_eq_some_iff.1 hfind
    have hmem : r ∈ c.recipes :=
      Catalog.mem_of_findProducers (List.mem_of_find?_eq_some he) r (mem_of_chooseProducer hchoose)
    intro x hx
    rcases RecipeBook.mem_insert hx with rfl | hx
    · exact hmem
    · exact hacc x hx

theorem readLevels_within {excluded : List Nat} (n : Nat) {s : Snapshot} {frontier seen : List Nat}
    (hs : Within c s) : Within c (readLevels c excluded n s frontier seen) := by
  induction n generalizing s frontier seen with
  | zero => exact hs
  | succ n ih =>
    unfold readLevels
    split
    · exact hs
    · exact ih (readLevel_within hs)

theorem readCopies_within {s : Snapshot} (hs : Within c s) : Within c (readCopies c s) := by
  unfold readCopies
  dsimp only
  split
  · exact hs
  · intro x hx
    rcases RecipeBook.mem_insertAll hx with hx | hx
    · exact Catalog.mem_of_findRecipes hx
    · exact hs x hx

theorem readBonuses_book {res : Resolver} {user : Nat} {s s' : Snapshot}
    (h : readBonuses res user s = .ok s') : s'.book = s.book := by
  unfold readBonuses at h
  refine foldlM_invariant (fun snap : Snapshot => snap.book = s.book) h rfl ?_
  rintro snap ⟨m, conv⟩ snap' - hbook hstep
  obtain ⟨b, -, hstep⟩ := ok_of_bind hstep
  split at hstep <;> cases hstep <;> exact hbook

/-- Every recipe of a loaded snapshot was read from the catalogue. -/
theorem load_within {res : Resolver} {req : SnapshotRequest} {config : EngineConfig}
    {s : Snapshot} (h : load c res req config = .ok s) : Within c s := by
  unfold load at h
  have hlevels : Within c (readLevels c req.excluded (config.maxDepth + 2)
      { overrides := req.overrides } (ascendingSet req.roots) (ascendingSet req.roots)) :=
    readLevels_within _ fun r hr => by cases hr
  intro r hr
  rw [readBonuses_book h] at hr
  split at hr
  · exact readCopies_within hlevels r hr
  · exact hlevels r hr

/-- A snapshot whose producers are all of a producing kind. -/
def Producing (s : Snapshot) : Prop :=
  ∀ e ∈ s.producers, producingKinds.contains e.2.activity = true

theorem readLevel_producing {excluded frontier seen : List Nat} {s : Snapshot} (hs : Producing s) :
    Producing (readLevel c excluded s frontier seen).1 := by
  unfold readLevel
  refine foldl_invariant (fun (acc : Snapshot × List Nat × List Nat) => Producing acc.1) hs ?_
  rintro ⟨snap, next, seen⟩ m - hacc
  dsimp only
  split
  · exact hacc
  · rename_i r hr
    obtain ⟨rs, -, hchoose⟩ := Option.bind_eq_some_iff.1 hr
    intro e he
    rcases mem_putEntry he with rfl | he
    · exact chooseProducer_kind hchoose
    · exact hacc e he

theorem readLevels_producing {excluded : List Nat} (n : Nat) {s : Snapshot}
    {frontier seen : List Nat} (hs : Producing s) :
    Producing (readLevels c excluded n s frontier seen) := by
  induction n generalizing s frontier seen with
  | zero => exact hs
  | succ n ih =>
    unfold readLevels
    split
    · exact hs
    · exact ih (readLevel_producing hs)

theorem readBonuses_producers {res : Resolver} {user : Nat} {s s' : Snapshot}
    (h : readBonuses res user s = .ok s') : s'.producers = s.producers := by
  unfold readBonuses at h
  refine foldlM_invariant (fun snap : Snapshot => snap.producers = s.producers) h rfl ?_
  rintro snap ⟨m, conv⟩ snap' - hprod hstep
  obtain ⟨b, -, hstep⟩ := ok_of_bind hstep
  split at hstep <;> cases hstep <;> exact hprod

/-- The producers of a loaded snapshot are those its levels read: fetching duplicates and
bonuses reads none. -/
theorem load_producers {res : Resolver} {req : SnapshotRequest} {config : EngineConfig}
    {s : Snapshot} (h : load c res req config = .ok s) :
    s.producers = (readLevels c req.excluded (config.maxDepth + 2) { overrides := req.overrides }
      (ascendingSet req.roots) (ascendingSet req.roots)).producers := by
  unfold load at h
  rw [readBonuses_producers h]
  split
  · unfold readCopies
    dsimp only
    split <;> rfl
  · rfl

/-- Every producer of a loaded snapshot is a build or conversion recipe. -/
theorem load_producing {res : Resolver} {req : SnapshotRequest} {config : EngineConfig}
    {s : Snapshot} (h : load c res req config = .ok s) : Producing s := by
  intro e he
  rw [load_producers h] at he
  exact readLevels_producing _ (fun e he => by cases he) e he

/-- A material's producer in a loaded snapshot is a recipe of the catalogue of a producing
kind. -/
theorem producerOf_loaded {res : Resolver} {req : SnapshotRequest} {config : EngineConfig}
    {s : Snapshot} (h : load c res req config = .ok s) {m : Nat} {R : Recipe}
    (hR : s.producerOf m = some R) :
    R ∈ c.recipes ∧ producingKinds.contains R.activity = true := by
  obtain ⟨k, hk, hget⟩ := Option.bind_eq_some_iff.1 hR
  obtain ⟨e, he, rfl⟩ := Option.map_eq_some_iff.1 hk
  obtain ⟨hkey, hmem⟩ := RecipeBook.key_of_get? hget
  have hkind := load_producing h e (List.mem_reverse.1 (List.mem_of_find?_eq_some he))
  rw [← hkey] at hkind
  exact ⟨load_within h R hmem, hkind⟩

/-- A producer is the book's recipe for its own key. -/
theorem get?_of_producerOf {s : Snapshot} {m : Nat} {R : Recipe} (h : s.producerOf m = some R) :
    s.book.get? R.key = some R := by
  obtain ⟨k, -, hk⟩ := Option.bind_eq_some_iff.1 h
  rw [(RecipeBook.key_of_get? hk).1]
  exact hk

/-- With one recipe per key in the catalogue, the book's recipe for a key is the catalogue's. -/
theorem findRecipe_of_get? (hkeys : (c.recipes.map (·.key)).Nodup) {s : Snapshot} (hs : Within c s)
    {k : RecipeKey} {r : Recipe} (h : s.book.get? k = some r) : c.findRecipe k = some r := by
  obtain ⟨hrk, hr⟩ := RecipeBook.key_of_get? h
  have hrc : r ∈ c.recipes := hs r hr
  obtain ⟨r', hr'⟩ : ∃ r', c.findRecipe k = some r' :=
    Option.isSome_iff_exists.1 (List.find?_isSome.2 ⟨r, hrc, by simp [hrk]⟩)
  have hk' : r'.key = k := by simpa using List.find?_some hr'
  have : r' = r :=
    List.inj_on_of_nodup_map hkeys (List.mem_of_find?_eq_some hr') hrc (hk'.trans hrk.symm)
  rw [hr', this]

end Snapshot

end Fabrication
