import Fabrication.Proofs.Snapshot

/-!
# What the levels of a snapshot cover

Loading a snapshot reads producers level by level. Each level asks for every material it is
given and queues, for the next level, the inputs of the producers it found that are neither
excluded nor seen before. Since a material is queued once it is seen, every material within
`k` feeding steps of the roots (`Catalog.Near`) is asked by the time `k + 1` levels are read
(`readLevels_covers`).

A material that has been asked (`Snapshot.Asked`) has the snapshot's producer that the
catalogue chooses for it, provided the catalogue holds one recipe per key. Otherwise a recipe
that is put into the book could displace another of the same key (`Snapshot.Sound`,
`producerOf_of_asked`).
-/

namespace Fabrication

/-- A step that establishes a property of its own element, which later steps keep,
leaves that property for every element of the list. -/
theorem foldl_establish {α β : Type} {f : β → α → β} (Q : α → β → Prop) {l : List α}
    (hest : ∀ b a, a ∈ l → Q a (f b a)) (hkeep : ∀ b a a', a' ∈ l → Q a b → Q a (f b a')) :
    ∀ b, ∀ a ∈ l, Q a (l.foldl f b) := by
  induction l with
  | nil => intro b a ha; cases ha
  | cons x l ih =>
    intro b a ha
    rw [List.foldl_cons]
    rcases List.mem_cons.1 ha with rfl | ha
    · exact foldl_invariant (Q a) (hest b a List.mem_cons_self)
        fun b' a' ha' hq => hkeep b' a a' (List.mem_cons_of_mem _ ha') hq
    · exact ih (fun b a ha => hest b a (List.mem_cons_of_mem _ ha))
        (fun b a a' ha' => hkeep b a a' (List.mem_cons_of_mem _ ha')) (f b x) a ha

namespace RecipeBook

theorem get?_insert_self (b : RecipeBook) (r : Recipe) : (b.insert r).get? r.key = some r := by
  unfold insert get?
  split
  · rename_i hany
    rw [List.find?_map]
    have hp : ((fun y : Recipe => y.key == r.key) ∘ fun y => if y.key == r.key then r else y) =
        fun y => y.key == r.key := by
      funext y
      by_cases h : y.key = r.key <;> simp [h]
    obtain ⟨x, hx, hxk⟩ := List.any_eq_true.1 hany
    obtain ⟨y, hy⟩ : ∃ y, b.recipes.find? (·.key == r.key) = some y :=
      Option.isSome_iff_exists.1 (List.find?_isSome.2 ⟨x, hx, hxk⟩)
    have hyk : y.key = r.key := by simpa using List.find?_some hy
    rw [hp, hy]
    simp [hyk]
  · rename_i hany
    have hnone : b.recipes.find? (·.key == r.key) = none :=
      List.find?_eq_none.2 fun x hx hxk => hany (List.any_eq_true.2 ⟨x, hx, by simpa using hxk⟩)
    simp [List.find?_append, hnone]

theorem get?_insert_of_ne (b : RecipeBook) (r : Recipe) {k : RecipeKey} (hk : k ≠ r.key) :
    (b.insert r).get? k = b.get? k := by
  unfold insert get?
  split
  · rw [List.find?_map]
    have hp : ((fun y : Recipe => y.key == k) ∘ fun y => if y.key == r.key then r else y) =
        fun y => y.key == k := by
      funext y
      by_cases h : y.key = r.key <;> simp [h]
    rw [hp]
    cases hfind : b.recipes.find? (·.key == k) with
    | none => rfl
    | some y =>
      have hyk : y.key = k := by simpa using List.find?_some hfind
      simp [hyk, hk]
  · simp [List.find?_append, Ne.symm hk]

/-- Recipes put into a book whose keys differ from a key leave that key's recipe. -/
theorem get?_insertAll_of_ne (b : RecipeBook) {rs : List Recipe} {k : RecipeKey}
    (hk : ∀ r ∈ rs, r.key ≠ k) : (b.insertAll rs).get? k = b.get? k := by
  induction rs generalizing b with
  | nil => rfl
  | cons r rs ih =>
    simp only [insertAll, List.foldl_cons] at ih ⊢
    rw [ih _ fun r' hr' => hk r' (List.mem_cons_of_mem _ hr'),
      get?_insert_of_ne _ _ fun h => hk r List.mem_cons_self h.symm]

end RecipeBook

namespace Catalog

/-- The producer a snapshot chooses for a material, asked of the catalogue alone. -/
def chosen (c : Catalog) (m : Nat) : Option Recipe := chooseProducer (c.findProducer m producingKinds)

theorem chosen_mem {c : Catalog} {m : Nat} {r : Recipe} (h : c.chosen m = some r) :
    r ∈ c.recipes :=
  (List.mem_filter.1 ((mem_sortBy _).1 (mem_of_chooseProducer h))).1

theorem chosen_produces {c : Catalog} {m : Nat} {r : Recipe} (h : c.chosen m = some r) :
    r.produces m = true :=
  (Bool.and_eq_true_iff.1 (List.mem_filter.1 ((mem_sortBy _).1 (mem_of_chooseProducer h))).2).2

/-- `m` is an input, not excluded, of the producer chosen for `x`. -/
def Feeds (c : Catalog) (excluded : List Nat) (x m : Nat) : Prop :=
  ∃ r, c.chosen x = some r ∧ (∃ p ∈ r.inputs, p.material = m) ∧ m ∉ excluded

/-- Materials within `k` feeding steps of one of `U`. -/
def Near (c : Catalog) (excluded : List Nat) (U : Nat → Prop) : Nat → Nat → Prop
  | 0, m => U m
  | k + 1, m => Near c excluded U k m ∨ ∃ x, Near c excluded U k x ∧ Feeds c excluded x m

variable {c : Catalog} {excluded : List Nat}

theorem Near.mono {U V : Nat → Prop} (hUV : ∀ m, U m → V m) :
    ∀ {k m : Nat}, Near c excluded U k m → Near c excluded V k m
  | 0, _, h => hUV _ h
  | _ + 1, _, .inl h => .inl (Near.mono hUV h)
  | _ + 1, _, .inr ⟨x, hx, hfeeds⟩ => .inr ⟨x, Near.mono hUV hx, hfeeds⟩

/-- One step more from `U` is one step less from `U` and what it feeds. -/
theorem Near.shift {U : Nat → Prop} :
    ∀ {k m : Nat}, Near c excluded U (k + 1) m →
      Near c excluded (fun x => U x ∨ ∃ u, U u ∧ Feeds c excluded u x) k m
  | 0, _, .inl h => .inl h
  | 0, _, .inr ⟨x, hx, hfeeds⟩ => .inr ⟨x, hx, hfeeds⟩
  | _ + 1, _, .inl h => .inl (Near.shift h)
  | _ + 1, _, .inr ⟨x, hx, hfeeds⟩ => .inr ⟨x, Near.shift hx, hfeeds⟩

/-- A set that holds what its members feed holds everything near it. -/
theorem Near.closed {U : Nat → Prop} (hU : ∀ x m, U x → Feeds c excluded x m → U m) :
    ∀ {k m : Nat}, Near c excluded U k m → U m
  | 0, _, h => h
  | _ + 1, _, .inl h => Near.closed hU h
  | _ + 1, _, .inr ⟨x, hx, hfeeds⟩ => hU x _ (Near.closed hU hx) hfeeds

/-- The producers found for a batch of materials give each of them its chosen producer. -/
theorem chosen_of_findProducers {ms : List Nat} {m : Nat} (hm : m ∈ ms) :
    (((c.findProducers ms producingKinds).find? (·.1 == m)).map (·.2)).bind chooseProducer =
      c.chosen m := by
  cases hf : (c.findProducers ms producingKinds).find? (·.1 == m) with
  | none =>
    cases hp : c.findProducer m producingKinds with
    | nil => simp [chosen, hp, chooseProducer]
    | cons r rs =>
      have hmem : (m, r :: rs) ∈ c.findProducers ms producingKinds :=
        List.mem_filterMap.2 ⟨m, mem_ascendingSet.2 hm, by simp [hp]⟩
      exact absurd (List.find?_eq_none.1 hf _ hmem) (by simp)
  | some e =>
    have he : e.1 = m := by simpa using List.find?_some hf
    obtain ⟨m', -, hm'⟩ := List.mem_filterMap.1 (List.mem_of_find?_eq_some hf)
    cases hp : c.findProducer m' producingKinds with
    | nil => simp [hp] at hm'
    | cons r rs =>
      simp only [hp, Option.some.injEq] at hm'
      subst hm'
      subst he
      simp [chosen, hp]

end Catalog

namespace Snapshot

variable {c : Catalog} {excluded : List Nat}

theorem producerOf_eq (s : Snapshot) (m : Nat) :
    s.producerOf m = (lastValue? s.producers m).bind s.book.get? := rfl

/-- A material whose producer the snapshot has asked the catalogue for. -/
def Asked (c : Catalog) (s : Snapshot) (m : Nat) : Prop :=
  (lastValue? s.producers m).isSome ∨ c.chosen m = none

/-- Every producer of the snapshot is the one the catalogue chooses, found in the book under
its key. -/
def Sound (c : Catalog) (s : Snapshot) : Prop :=
  ∀ m k, lastValue? s.producers m = some k →
    ∃ r, c.chosen m = some r ∧ r.key = k ∧ s.book.get? k = some r

theorem producerOf_of_asked {s : Snapshot} {m : Nat} (hs : Sound c s) (h : Asked c s m) :
    s.producerOf m = c.chosen m := by
  rw [producerOf_eq]
  cases hk : lastValue? s.producers m with
  | none =>
    rcases h with h | h
    · simp [hk] at h
    · simp [h]
  | some k =>
    obtain ⟨r, hr, -, hget⟩ := hs m k hk
    simp [hget, hr]

/-- Putting in the chosen producer of a material keeps every producer the chosen one, when the
catalogue holds one recipe per key. -/
theorem Sound.put (hkeys : (c.recipes.map (·.key)).Nodup) {s : Snapshot} {m : Nat} {r : Recipe}
    (hs : Sound c s) (hr : c.chosen m = some r) :
    Sound c { s with producers := putEntry m r.key s.producers, book := s.book.insert r } := by
  intro x k hk
  simp only [lastValue?_putEntry] at hk
  split at hk
  · rename_i hx
    subst hx
    cases hk
    exact ⟨r, hr, rfl, RecipeBook.get?_insert_self _ _⟩
  · obtain ⟨r', hr', hkey, hget⟩ := hs x k hk
    refine ⟨r', hr', hkey, ?_⟩
    by_cases hkr : k = r.key
    · have : r' = r :=
        List.inj_on_of_nodup_map hkeys (Catalog.chosen_mem hr') (Catalog.chosen_mem hr)
          (hkey.trans hkr)
      subst this
      rw [hkr]
      exact RecipeBook.get?_insert_self _ _
    · rw [RecipeBook.get?_insert_of_ne _ _ hkr, hget]

theorem Asked.put {s : Snapshot} {m x : Nat} {k : RecipeKey} {b : RecipeBook}
    (h : Asked c s x) : Asked c { s with producers := putEntry m k s.producers, book := b } x := by
  rcases h with h | h
  · refine .inl ?_
    simp only [lastValue?_putEntry]
    split
    · rfl
    · exact h
  · exact .inr h

theorem asked_put_self {s : Snapshot} {m : Nat} {k : RecipeKey} {b : RecipeBook} :
    Asked c { s with producers := putEntry m k s.producers, book := b } m :=
  .inl (by simp [lastValue?_putEntry])

/-- Queueing the inputs of a producer: every input not excluded ends up seen, and what is
newly seen is queued. -/
theorem foldl_queue (excluded : List Nat) (ps : List Portion) :
    ∀ next seen : List Nat,
      (∀ m ∈ seen, m ∈ (ps.foldl (fun (q : List Nat × List Nat) p =>
        if excluded.contains p.material || q.2.contains p.material then q
        else (q.1 ++ [p.material], q.2 ++ [p.material])) (next, seen)).2) ∧
      (∀ m ∈ (ps.foldl (fun (q : List Nat × List Nat) p =>
        if excluded.contains p.material || q.2.contains p.material then q
        else (q.1 ++ [p.material], q.2 ++ [p.material])) (next, seen)).2,
          m ∈ seen ∨ m ∈ (ps.foldl (fun (q : List Nat × List Nat) p =>
            if excluded.contains p.material || q.2.contains p.material then q
            else (q.1 ++ [p.material], q.2 ++ [p.material])) (next, seen)).1) ∧
      (∀ m ∈ next, m ∈ (ps.foldl (fun (q : List Nat × List Nat) p =>
        if excluded.contains p.material || q.2.contains p.material then q
        else (q.1 ++ [p.material], q.2 ++ [p.material])) (next, seen)).1) ∧
      (∀ p ∈ ps, p.material ∉ excluded → p.material ∈ (ps.foldl (fun (q : List Nat × List Nat) p =>
        if excluded.contains p.material || q.2.contains p.material then q
        else (q.1 ++ [p.material], q.2 ++ [p.material])) (next, seen)).2) := by
  induction ps with
  | nil =>
    intro next seen
    exact ⟨fun _ h => h, fun _ h => .inl h, fun _ h => h, fun _ h => by cases h⟩
  | cons p ps ih =>
    intro next seen
    rw [List.foldl_cons]
    split
    · rename_i hskip
      obtain ⟨h1, h2, h3, h4⟩ := ih next seen
      refine ⟨h1, h2, h3, fun p' hp' hx => ?_⟩
      rcases List.mem_cons.1 hp' with rfl | hp'
      · simp only [Bool.or_eq_true, List.contains_iff_mem] at hskip
        rcases hskip with hex | hseen
        · exact absurd hex hx
        · exact h1 _ hseen
      · exact h4 p' hp' hx
    · obtain ⟨h1, h2, h3, h4⟩ := ih (next ++ [p.material]) (seen ++ [p.material])
      refine ⟨fun m hm => h1 m (List.mem_append_left _ hm), fun m hm => ?_,
        fun m hm => h3 m (List.mem_append_left _ hm), fun p' hp' hx => ?_⟩
      · rcases h2 m hm with hm | hm
        · rcases List.mem_append.1 hm with hm | hm
          · exact .inl hm
          · exact .inr (h3 m (List.mem_append_right _ hm))
        · exact .inr hm
      · rcases List.mem_cons.1 hp' with rfl | hp'
        · exact h1 _ (List.mem_append_right _ List.mem_cons_self)
        · exact h4 p' hp' hx

theorem Asked.of_put {s : Snapshot} {m x : Nat} {k : RecipeKey} {b : RecipeBook}
    (h : Asked c { s with producers := putEntry m k s.producers, book := b } x) :
    x = m ∨ Asked c s x := by
  rcases h with h | h
  · simp only [lastValue?_putEntry] at h
    split at h
    · exact .inl ‹_›
    · exact .inr (.inl h)
  · exact .inr (.inr h)

/-- What holds between two levels: the snapshot reads the catalogue's chosen producers, each
material seen is asked or waits in the frontier, and the inputs of every asked producer are
seen. -/
structure LevelInv (c : Catalog) (excluded : List Nat) (s : Snapshot) (frontier seen : List Nat) :
    Prop where
  within : Within c s
  sound : Sound c s
  pending : ∀ m ∈ seen, m ∈ frontier ∨ Asked c s m
  queued : ∀ x m, Asked c s x → Catalog.Feeds c excluded x m → m ∈ seen

/-- Reading a level asks every material of the frontier and keeps what was asked before; what
it queues is the next frontier. -/
theorem readLevel_inv (hkeys : (c.recipes.map (·.key)).Nodup) {s : Snapshot}
    {frontier seen : List Nat} (h : LevelInv c excluded s frontier seen) :
    LevelInv c excluded (readLevel c excluded s frontier seen).1
        (sortBy (· ≤ ·) (readLevel c excluded s frontier seen).2.1)
        (readLevel c excluded s frontier seen).2.2 ∧
      ∀ m, m ∈ frontier ∨ Asked c s m → Asked c (readLevel c excluded s frontier seen).1 m := by
  -- along the frontier: producers stay chosen, asked materials stay asked, what is seen is
  -- seen before or queued, and the inputs of every asked producer are seen
  have hfold : Sound c (readLevel c excluded s frontier seen).1 ∧
      (∀ m, Asked c s m → Asked c (readLevel c excluded s frontier seen).1 m) ∧
      (∀ m ∈ seen, m ∈ (readLevel c excluded s frontier seen).2.2) ∧
      (∀ m ∈ (readLevel c excluded s frontier seen).2.2,
        m ∈ seen ∨ m ∈ (readLevel c excluded s frontier seen).2.1) ∧
      (∀ x m, Asked c (readLevel c excluded s frontier seen).1 x → Catalog.Feeds c excluded x m →
        m ∈ (readLevel c excluded s frontier seen).2.2) := by
    unfold readLevel
    refine foldl_invariant (fun (acc : Snapshot × List Nat × List Nat) => Sound c acc.1 ∧
        (∀ m, Asked c s m → Asked c acc.1 m) ∧ (∀ m ∈ seen, m ∈ acc.2.2) ∧
        (∀ m ∈ acc.2.2, m ∈ seen ∨ m ∈ acc.2.1) ∧
        (∀ x m, Asked c acc.1 x → Catalog.Feeds c excluded x m → m ∈ acc.2.2))
      ⟨h.sound, fun _ hm => hm, fun _ hm => hm, fun _ hm => .inl hm, h.queued⟩ ?_
    rintro ⟨snap, next, seen'⟩ m hm ⟨hsound, hmono, hseen, hnew, hqueued⟩
    dsimp only
    rw [Catalog.chosen_of_findProducers hm]
    cases hr : c.chosen m with
    | none => exact ⟨hsound, hmono, hseen, hnew, hqueued⟩
    | some r =>
      dsimp only
      obtain ⟨h1, h2, h3, h4⟩ := foldl_queue excluded r.inputs next seen'
      refine ⟨hsound.put hkeys hr, fun x hx => (hmono x hx).put, fun x hx => h1 x (hseen x hx),
        fun x hx => ?_, fun x y hx hfeeds => ?_⟩
      · rcases h2 x hx with hx | hx
        · rcases hnew x hx with hx | hx
          · exact .inl hx
          · exact .inr (h3 x hx)
        · exact .inr hx
      · rcases hx.of_put with rfl | hx
        · obtain ⟨r', hr', ⟨p, hp, rfl⟩, hex⟩ := hfeeds
          rw [hr] at hr'
          cases hr'
          exact h4 p hp hex
        · exact h1 y (hqueued x y hx hfeeds)
  have hest : ∀ m ∈ frontier, Asked c (readLevel c excluded s frontier seen).1 m := by
    unfold readLevel
    refine foldl_establish (fun m (acc : Snapshot × List Nat × List Nat) => Asked c acc.1 m)
      ?_ ?_ _
    · rintro ⟨snap, next, seen'⟩ m hm
      dsimp only
      rw [Catalog.chosen_of_findProducers hm]
      cases hr : c.chosen m with
      | none => exact .inr hr
      | some r => exact asked_put_self
    · rintro ⟨snap, next, seen'⟩ m m' hm' hasked
      dsimp only
      rw [Catalog.chosen_of_findProducers hm']
      cases c.chosen m' with
      | none => exact hasked
      | some r => exact hasked.put
  obtain ⟨hsound, hmono, hseen, hnew, hqueued⟩ := hfold
  have hasked : ∀ m, m ∈ frontier ∨ Asked c s m → Asked c (readLevel c excluded s frontier seen).1 m :=
    fun m hm => hm.elim (hest m) (hmono m)
  refine ⟨⟨readLevel_within h.within, hsound, fun m hm => ?_, hqueued⟩, hasked⟩
  rcases hnew m hm with hm | hm
  · exact .inr (hasked m (h.pending m hm))
  · exact .inl ((mem_sortBy _).2 hm)

/-- Reading `n` more levels asks every material within fewer than `n` feeding steps of the
frontier or of a material already asked, and keeps the producers chosen. -/
theorem readLevels_covers (hkeys : (c.recipes.map (·.key)).Nodup) :
    ∀ (n : Nat) {s : Snapshot} {frontier seen : List Nat}, LevelInv c excluded s frontier seen →
      Within c (readLevels c excluded n s frontier seen) ∧
        Sound c (readLevels c excluded n s frontier seen) ∧
        (∀ m, Asked c s m → Asked c (readLevels c excluded n s frontier seen) m) ∧
        ∀ k m, k < n → Catalog.Near c excluded (fun x => x ∈ frontier ∨ Asked c s x) k m →
          Asked c (readLevels c excluded n s frontier seen) m
  | 0, _, _, _, h => ⟨h.within, h.sound, fun _ hm => hm, fun k _ hk => absurd hk (Nat.not_lt_zero k)⟩
  | n + 1, s, frontier, seen, h => by
    unfold readLevels
    split
    · rename_i hempty
      have hF : frontier = [] := List.isEmpty_iff.1 hempty
      have hasked : ∀ x, x ∈ frontier ∨ Asked c s x → Asked c s x := fun x hx =>
        hx.elim (fun hx => by simp [hF] at hx) id
      refine ⟨h.within, h.sound, fun _ hm => hm, fun k m _ hnear => hasked m ?_⟩
      refine Catalog.Near.closed (fun x y hx hfeeds => ?_) hnear
      exact h.pending y (h.queued x y (hasked x hx) hfeeds)
    · obtain ⟨hinv, hasked⟩ := readLevel_inv hkeys h
      rcases hrl : readLevel c excluded s frontier seen with ⟨s₁, next, seen₁⟩
      rw [hrl] at hinv hasked
      dsimp only at hinv hasked ⊢
      obtain ⟨hw, hs, hmono, hcover⟩ := readLevels_covers hkeys n hinv
      refine ⟨hw, hs, fun m hm => hmono m (hasked m (.inr hm)), fun k m hk hnear => ?_⟩
      cases k with
      | zero => exact hmono m (hasked m hnear)
      | succ k =>
        refine hcover k m (by omega) (Catalog.Near.mono (fun x hx => ?_) hnear.shift)
        rcases hx with hx | ⟨u, hu, hfeeds⟩
        · exact .inr (hasked x hx)
        · exact hinv.pending x (hinv.queued u x (hasked u hu) hfeeds)

/-- Every producer of a snapshot is named by the key of a catalogue recipe that makes its
material. This holds whatever recipes share a key; `Sound` needs one recipe per key. -/
def ProducersMake (c : Catalog) (s : Snapshot) : Prop :=
  ∀ e ∈ s.producers, ∃ r ∈ c.recipes, r.key = e.2 ∧ r.produces e.1 = true

theorem readLevel_producersMake {excluded frontier seen : List Nat} {s : Snapshot}
    (hs : ProducersMake c s) : ProducersMake c (readLevel c excluded s frontier seen).1 := by
  unfold readLevel
  refine foldl_invariant (fun (acc : Snapshot × List Nat × List Nat) => ProducersMake c acc.1) hs ?_
  rintro ⟨snap, next, seen'⟩ m hm hacc
  dsimp only
  rw [Catalog.chosen_of_findProducers hm]
  cases hr : c.chosen m with
  | none => exact hacc
  | some r =>
    intro e he
    rcases mem_putEntry he with rfl | he
    · exact ⟨r, Catalog.chosen_mem hr, rfl, Catalog.chosen_produces hr⟩
    · exact hacc e he

theorem readLevels_producersMake (n : Nat) {s : Snapshot} {frontier seen : List Nat}
    (hs : ProducersMake c s) : ProducersMake c (readLevels c excluded n s frontier seen) := by
  induction n generalizing s frontier seen with
  | zero => exact hs
  | succ n ih =>
    unfold readLevels
    split
    · exact hs
    · exact ih (readLevel_producersMake hs)

/-- A material's producer in a loaded snapshot has the key of a catalogue recipe that makes the
material. -/
theorem producerOf_made {res : Resolver} {req : SnapshotRequest} {config : EngineConfig}
    {s : Snapshot} (h : load c res req config = .ok s) {m : Nat} {R : Recipe}
    (hR : s.producerOf m = some R) : ∃ r ∈ c.recipes, r.key = R.key ∧ r.produces m = true := by
  obtain ⟨k, hk, hget⟩ := Option.bind_eq_some_iff.1 hR
  obtain ⟨e, he, rfl⟩ := Option.map_eq_some_iff.1 hk
  have hm : e.1 = m := by simpa using List.find?_some he
  have hmake : ProducersMake c s := by
    intro e he
    rw [load_producers h] at he
    exact readLevels_producersMake _ (fun e he => by cases he) e he
  obtain ⟨r, hr, hkey, hmade⟩ := hmake e (List.mem_reverse.1 (List.mem_of_find?_eq_some he))
  exact ⟨r, hr, hkey.trans (RecipeBook.key_of_get? hget).1.symm, hm ▸ hmade⟩

end Snapshot

end Fabrication
