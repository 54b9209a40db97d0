import Fabrication.Table
import Mathlib.Data.List.Nodup

/-!
# Reading keyed tables

`putEntry` replaces the value of a key in place: looking a key up afterwards finds the new
value for that key and the old lookup for every other key, and so does reading the last value
of a key (`lastValue?_putEntry`). Dropping the entries of a key leaves that key without a value
and the others as they were. Sorting permutes a list, and `ascendingSet` keeps exactly the
numbers of its list, each once.
-/

namespace Fabrication

section Sorting

variable {α : Type} (le : α → α → Bool)

theorem orderedInsert_perm (x : α) (l : List α) : (orderedInsert le x l).Perm (x :: l) := by
  induction l with
  | nil => exact List.Perm.refl _
  | cons y ys ih =>
    unfold orderedInsert
    split
    · exact (ih.cons y).trans (List.Perm.swap x y ys)
    · exact List.Perm.refl _

/-- Sorting keeps the elements of a list, each as often as it occurs. -/
theorem sortBy_perm (xs : List α) : (sortBy le xs).Perm xs := by
  suffices h : ∀ acc : List α,
      (xs.foldl (fun acc x => orderedInsert le x acc) acc).Perm (acc ++ xs) by
    simpa [sortBy] using h []
  induction xs with
  | nil => intro acc; simp
  | cons x xs ih =>
    intro acc
    rw [List.foldl_cons]
    have hstep : (orderedInsert le x acc ++ xs).Perm (acc ++ x :: xs) :=
      ((orderedInsert_perm le x acc).append_right xs).trans List.perm_middle.symm
    exact (ih _).trans hstep

@[simp] theorem mem_sortBy {x : α} {xs : List α} : x ∈ sortBy le xs ↔ x ∈ xs :=
  (sortBy_perm le xs).mem_iff

variable {le} (htotal : ∀ a b, le a b ∨ le b a) (htrans : ∀ a b c, le a b → le b c → le a c)
include htotal htrans

theorem orderedInsert_pairwise (x : α) {l : List α} (h : l.Pairwise (le · ·)) :
    (orderedInsert le x l).Pairwise (le · ·) := by
  induction l with
  | nil => simp [orderedInsert]
  | cons y ys ih =>
    obtain ⟨hy, hys⟩ := List.pairwise_cons.1 h
    unfold orderedInsert
    split
    · rename_i hyx
      refine List.pairwise_cons.2 ⟨fun z hz => ?_, ih hys⟩
      rcases List.mem_cons.1 ((orderedInsert_perm le x ys).mem_iff.1 hz) with rfl | hz
      · exact hyx
      · exact hy z hz
    · rename_i hyx
      have hxy : le x y := (htotal x y).resolve_right hyx
      refine List.pairwise_cons.2 ⟨fun z hz => ?_, h⟩
      rcases List.mem_cons.1 hz with rfl | hz
      · exact hxy
      · exact htrans x y z hxy (hy z hz)

/-- Sorting by a total preorder puts every element before the ones it may precede. -/
theorem sortBy_pairwise (xs : List α) : (sortBy le xs).Pairwise (le · ·) := by
  suffices h : ∀ acc : List α, acc.Pairwise (le · ·) →
      (xs.foldl (fun acc x => orderedInsert le x acc) acc).Pairwise (le · ·) from
    h [] List.Pairwise.nil
  induction xs with
  | nil => exact fun acc h => h
  | cons x xs ih => exact fun acc h => ih _ (orderedInsert_pairwise htotal htrans x h)

end Sorting

section Lookup

variable {κ α : Type} [DecidableEq κ]

/-- The value found for a key after `putEntry`. -/
theorem lookup_putEntry (k x : κ) (v : α) (es : List (κ × α)) :
    ((putEntry k v es).find? (·.1 == x)).map (·.2) =
      if x = k then some v else (es.find? (·.1 == x)).map (·.2) := by
  unfold putEntry
  split
  · rename_i hany
    rw [List.find?_map]
    by_cases hx : x = k
    · subst hx
      have hp : ((fun e : κ × α => e.1 == x) ∘ fun e => if e.1 == x then (x, v) else e) =
          fun e => e.1 == x := by
        funext e; by_cases h : e.1 = x <;> simp [h]
      obtain ⟨e, he, hex⟩ := List.any_eq_true.1 hany
      have hsome : (es.find? (·.1 == x)).isSome := List.find?_isSome.2 ⟨e, he, hex⟩
      obtain ⟨e', hfind⟩ := Option.isSome_iff_exists.1 hsome
      have hkey : e'.1 = x := by simpa using List.find?_some hfind
      rw [hp, hfind]
      simp [hkey]
    · have hp : ((fun e : κ × α => e.1 == x) ∘ fun e => if e.1 == k then (k, v) else e) =
          fun e => e.1 == x := by
        funext e; by_cases h : e.1 = k <;> simp [h]
      rw [hp, if_neg hx]
      cases hfind : es.find? (·.1 == x) with
      | none => rfl
      | some e =>
        have hkey : e.1 = x := by simpa using List.find?_some hfind
        simp [hkey, hx]
  · rename_i hany
    rw [List.find?_append]
    by_cases hx : x = k
    · subst hx
      have hnone : es.find? (·.1 == x) = none := by
        simpa using fun e he hex => hany (List.any_eq_true.2 ⟨e, he, by simpa using hex⟩)
      simp [hnone]
    · cases es.find? (·.1 == x) <;> simp [hx, Ne.symm hx]

/-- An entry after `putEntry` is the new one or an entry from before. -/
theorem mem_putEntry {k : κ} {v : α} {es : List (κ × α)} {e : κ × α} (h : e ∈ putEntry k v es) :
    e = (k, v) ∨ e ∈ es := by
  unfold putEntry at h
  split at h
  · obtain ⟨e', he', rfl⟩ := List.mem_map.1 h
    split
    · exact .inl rfl
    · exact .inr he'
  · rcases List.mem_append.1 h with h | h
    · exact .inr h
    · exact .inl (List.mem_singleton.1 h)

/-- Putting a value for a key leaves what putting it in place of an earlier put leaves. -/
theorem putEntry_putEntry (k : κ) (v w : α) (es : List (κ × α)) :
    putEntry k v (putEntry k w es) = putEntry k v es := by
  by_cases hany : es.any (·.1 == k) = true
  · have hput : (es.map fun e => if e.1 == k then (k, w) else e).any (·.1 == k) = true := by
      obtain ⟨e, he, hek⟩ := List.any_eq_true.1 hany
      exact List.any_eq_true.2 ⟨(k, w), List.mem_map.2 ⟨e, he, by rw [if_pos hek]⟩, by simp⟩
    have hw : putEntry k w es = es.map fun e => if e.1 == k then (k, w) else e := if_pos hany
    have hv : putEntry k v es = es.map fun e => if e.1 == k then (k, v) else e := if_pos hany
    rw [hw, hv, putEntry, if_pos hput, List.map_map]
    congr 1
    funext e
    by_cases hek : e.1 = k <;> simp [hek]
  · have hkeep : ∀ e ∈ es, (if e.1 == k then (k, v) else e) = e := fun e he =>
      if_neg fun hek => hany (List.any_eq_true.2 ⟨e, he, hek⟩)
    have hw : putEntry k w es = es ++ [(k, w)] := if_neg hany
    have hv : putEntry k v es = es ++ [(k, v)] := if_neg hany
    rw [hw, hv, putEntry, if_pos (by simp), List.map_append, List.map_congr_left hkeep,
      List.map_id']
    simp

/-- A table holds `v` for `k` when it has an entry for `k` and every entry for `k` carries
`v`. -/
def HoldsAt (es : List (κ × α)) (k : κ) (v : α) : Prop :=
  es.any (·.1 == k) = true ∧ ∀ e ∈ es, e.1 = k → e.2 = v

/-- Putting the value a table already holds for a key changes nothing. -/
theorem putEntry_of_holdsAt {es : List (κ × α)} {k : κ} {v : α} (h : HoldsAt es k v) :
    putEntry k v es = es := by
  rw [putEntry, if_pos h.1]
  refine (List.map_congr_left (g := id) fun e he => ?_).trans (List.map_id es)
  by_cases hek : e.1 = k
  · rw [if_pos (beq_iff_eq.2 hek), ← hek, ← h.2 e he hek]
    rfl
  · rw [if_neg (by simpa using hek)]
    rfl

theorem holdsAt_putEntry (k : κ) (v : α) (es : List (κ × α)) : HoldsAt (putEntry k v es) k v := by
  unfold putEntry
  split
  · rename_i hany
    obtain ⟨e, he, hek⟩ := List.any_eq_true.1 hany
    refine ⟨List.any_eq_true.2 ⟨(k, v), List.mem_map.2 ⟨e, he, by rw [if_pos hek]⟩, by simp⟩, ?_⟩
    intro e' he' hk
    obtain ⟨e, -, rfl⟩ := List.mem_map.1 he'
    by_cases hek : e.1 = k
    · simp [hek]
    · simp [hek] at hk
  · rename_i hany
    refine ⟨by simp, fun e he hk => ?_⟩
    rcases List.mem_append.1 he with he | he
    · exact absurd (List.any_eq_true.2 ⟨e, he, by simp [hk]⟩) hany
    · simp at he
      rw [he]

/-- Putting a value for another key keeps what a table holds for a key. -/
theorem HoldsAt.putEntry_of_ne {es : List (κ × α)} {k k' : κ} {v v' : α} (h : HoldsAt es k v)
    (hne : k' ≠ k) : HoldsAt (putEntry k' v' es) k v := by
  obtain ⟨e, he, hek⟩ := List.any_eq_true.1 h.1
  have hek : e.1 = k := by simpa using hek
  unfold putEntry
  split
  · have hkeep : ∀ e ∈ es, e.1 = k → (if e.1 == k' then (k', v') else e) = e := fun e _ hk =>
      if_neg (by simpa [hk] using Ne.symm hne)
    refine ⟨List.any_eq_true.2 ⟨e, List.mem_map.2 ⟨e, he, hkeep e he hek⟩, by simp [hek]⟩, ?_⟩
    intro e' he' hk
    obtain ⟨e'', he'', rfl⟩ := List.mem_map.1 he'
    by_cases hk' : e''.1 = k'
    · simp [hk'] at hk
      exact absurd hk hne
    · simp only [beq_iff_eq, hk', if_false] at hk ⊢
      exact h.2 e'' he'' hk
  · refine ⟨List.any_eq_true.2 ⟨e, List.mem_append_left _ he, by simp [hek]⟩, fun e' he' hk => ?_⟩
    rcases List.mem_append.1 he' with he' | he'
    · exact h.2 e' he' hk
    · simp at he'
      rw [he'] at hk
      exact absurd hk hne

section Fold

variable {entries : List (κ × α)}

/-- Puts for other keys keep what a table holds for a key. -/
theorem HoldsAt.foldl_putEntry {es : List (κ × α)} {k : κ} {v : α} (h : HoldsAt es k v)
    (hk : ∀ e ∈ entries, e.1 ≠ k) :
    HoldsAt (entries.foldl (fun es e => putEntry e.1 e.2 es) es) k v := by
  induction entries generalizing es with
  | nil => exact h
  | cons e rest ih =>
    exact ih (h.putEntry_of_ne (hk e (by simp))) fun e' he' => hk e' (by simp [he'])

/-- After the puts of entries with distinct keys, the table holds each entry's value. -/
theorem holdsAt_foldl_putEntry (hnd : (entries.map (·.1)).Nodup) (es : List (κ × α)) :
    ∀ e ∈ entries, HoldsAt (entries.foldl (fun es e => putEntry e.1 e.2 es) es) e.1 e.2 := by
  induction entries generalizing es with
  | nil => simp
  | cons e rest ih =>
    rw [List.map_cons, List.nodup_cons] at hnd
    intro e' he'
    rcases List.mem_cons.1 he' with rfl | he'
    · refine (holdsAt_putEntry e'.1 e'.2 es).foldl_putEntry fun e'' he'' heq => hnd.1 ?_
      exact heq ▸ List.mem_map_of_mem he''
    · exact ih hnd.2 _ e' he'

end Fold

/-- In a list with distinct keys, looking an element's key up finds that element. -/
theorem find?_key_of_mem {β : Type} (key : β → κ) {l : List β} (hnd : (l.map key).Nodup) {b : β}
    (hb : b ∈ l) : l.find? (fun x => key x == key b) = some b := by
  obtain ⟨b', hb'⟩ : ∃ b', l.find? (fun x => key x == key b) = some b' :=
    Option.isSome_iff_exists.1 (List.find?_isSome.2 ⟨b, hb, by simp⟩)
  have hkey : key b' = key b := by simpa using List.find?_some hb'
  rw [hb', List.inj_on_of_nodup_map hnd (List.mem_of_find?_eq_some hb') hb hkey]

/-- The value found for a key after the entries of another key are dropped. -/
theorem lookup_filter (k x : κ) (es : List (κ × α)) :
    ((es.filter (·.1 != k)).find? (·.1 == x)).map (·.2) =
      if x = k then none else (es.find? (·.1 == x)).map (·.2) := by
  induction es with
  | nil => split <;> rfl
  | cons e es ih =>
    by_cases h1 : e.1 = k <;> by_cases h2 : e.1 = x
    · subst h1; subst h2; simp
    · have hxk : x ≠ k := fun h => h2 (h1.trans h.symm)
      simpa [h1, h2, hxk, Ne.symm hxk] using ih
    · subst h2; simp [h1]
    · simpa [List.filter_cons, h1, h2] using ih

/-- The last value of a key after `putEntry`. -/
theorem lastValue?_putEntry (k x : Nat) (v : α) (es : List (Nat × α)) :
    lastValue? (putEntry k v es) x = if x = k then some v else lastValue? es x := by
  unfold lastValue? putEntry
  split
  · rename_i hany
    rw [← List.map_reverse, List.find?_map]
    by_cases hx : x = k
    · subst hx
      have hp : ((fun e : Nat × α => e.1 == x) ∘ fun e => if e.1 == x then (x, v) else e) =
          fun e => e.1 == x := by
        funext e
        by_cases h : e.1 = x <;> simp [h]
      obtain ⟨e, he, hex⟩ := List.any_eq_true.1 hany
      obtain ⟨e', hfind⟩ := Option.isSome_iff_exists.1
        (List.find?_isSome.2 ⟨e, List.mem_reverse.2 he, hex⟩ : (es.reverse.find? (·.1 == x)).isSome)
      have hkey : e'.1 = x := by simpa using List.find?_some hfind
      rw [hp, hfind]
      simp [hkey]
    · have hp : ((fun e : Nat × α => e.1 == x) ∘ fun e => if e.1 == k then (k, v) else e) =
          fun e => e.1 == x := by
        funext e
        by_cases h : e.1 = k <;> simp [h]
      rw [hp, if_neg hx]
      cases hfind : es.reverse.find? (·.1 == x) with
      | none => rfl
      | some e =>
        have hkey : e.1 = x := by simpa using List.find?_some hfind
        simp [hkey, hx]
  · rw [List.reverse_append]
    by_cases hx : x = k
    · subst hx
      simp
    · simp [hx, Ne.symm hx]

/-- The last value of a key in a table made from a list is read off the last entry with that
key. -/
theorem lastValue?_map {β : Type} (g : β → Nat × α) (xs : List β) (x : Nat) :
    lastValue? (xs.map g) x = ((xs.filter fun b => (g b).1 == x).getLast?).map fun b => (g b).2 := by
  unfold lastValue?
  rw [← List.getLast?_filter, List.filter_map, List.getLast?_map, Option.map_map]
  rfl

end Lookup

private theorem mem_foldl_dedup (x : Nat) (xs acc : List Nat) :
    x ∈ xs.foldl (fun acc y => if acc.contains y then acc else acc ++ [y]) acc ↔ x ∈ acc ∨ x ∈ xs := by
  induction xs generalizing acc with
  | nil => simp
  | cons y ys ih =>
    rw [List.foldl_cons, ih]
    by_cases hy : y ∈ acc <;> simp [hy] <;> grind

private theorem nodup_foldl_dedup (xs acc : List Nat) (h : acc.Nodup) :
    (xs.foldl (fun acc y => if acc.contains y then acc else acc ++ [y]) acc).Nodup := by
  induction xs generalizing acc with
  | nil => exact h
  | cons y ys ih =>
    rw [List.foldl_cons]
    apply ih
    split
    · exact h
    · rename_i hy
      simp only [List.contains_eq_mem, decide_eq_true_eq] at hy
      simpa [List.nodup_append, h] using fun a ha (hay : a = y) => hy (hay ▸ ha)

theorem ascendingSet_nodup (xs : List Nat) : (ascendingSet xs).Nodup :=
  (sortBy_perm _ _).nodup_iff.2 (nodup_foldl_dedup xs [] List.nodup_nil)

theorem mem_ascendingSet {x : Nat} {xs : List Nat} : x ∈ ascendingSet xs ↔ x ∈ xs := by
  unfold ascendingSet
  rw [mem_sortBy, mem_foldl_dedup]
  simp

end Fabrication
