import Mathlib
import Fabrication.Step.Reconcile

/-!
# Kahn's loop

The cycle check runs Kahn's loop over positions `0, …, n - 1` joined by a list of edges
`(p, c)`, read as "`p` feeds `c`". Each position keeps the count of its feeders not yet visited,
counted with the edges (`Step.unvisitedFeeders`). One invariant carries the loop
(`Step.Kahn.Tracks`): the counts are these, and the positions visited or queued, each once, are
those whose count is zero. A release lowers one count and queues its position when the count
reaches zero (`Step.Kahn.Released.release`), so a visit keeps the invariant
(`Step.Kahn.Tracks.visit`); each visit adds a position, and as many visits as there are
positions leave the queue empty (`Step.Kahn.drain_start`).

A position never visited keeps a feeder never visited, so it lies on a cycle or is fed from one
(`FedFromCycle`); a position on or after a cycle keeps such a feeder too, so it is never
visited. The positions left with a positive count are thus exactly those on or after a cycle
(`Step.Kahn.drain_inDegree_pos_iff`), and the loop visits fewer than all positions exactly when
there is a cycle (`Step.Kahn.drain_visited_lt_iff`).
-/

namespace Fabrication

open Relation

section Cycles

variable {α : Type} {E : α → α → Prop}

/-- A node lies on a cycle of `E` or is reached from one. -/
def FedFromCycle (E : α → α → Prop) (j : α) : Prop := ∃ q, TransGen E q q ∧ ReflTransGen E q j

/-- A node on or after a cycle has a feeder that is on or after the cycle too. -/
theorem FedFromCycle.exists_pred {j : α} (h : FedFromCycle E j) :
    ∃ p, E p j ∧ FedFromCycle E p := by
  obtain ⟨q, hq, hqj⟩ := h
  rcases hqj.cases_tail with hjq | ⟨p, hqp, hpj⟩
  · subst hjq
    obtain ⟨p, hqp, hpq⟩ := TransGen.tail'_iff.1 hq
    exact ⟨p, hpq, j, hq, hqp⟩
  · exact ⟨p, hpj, q, hq, hqp⟩

theorem exists_fedFromCycle_iff : (∃ j, FedFromCycle E j) ↔ ∃ i, TransGen E i i :=
  ⟨fun ⟨_, q, hq, _⟩ => ⟨q, hq⟩, fun ⟨i, hi⟩ => ⟨i, i, hi, ReflTransGen.refl⟩⟩

/-- In a finite set where every node has a feeder inside the set, every node is on or after a
cycle: walking back from it inside the set, some node comes round again. -/
theorem fedFromCycle_of_fedWithin [DecidableEq α] {L : List α} (hL : ∀ j ∈ L, ∃ p ∈ L, E p j)
    {j : α} (hj : j ∈ L) : FedFromCycle E j := by
  have : Nonempty α := ⟨j⟩
  choose! pred hpredL hpredE using hL
  let x : ℕ → α := fun i => pred^[i] j
  have hsucc : ∀ i, x (i + 1) = pred (x i) := fun i => Function.iterate_succ_apply' pred i j
  have hx : ∀ i, x i ∈ L := by
    intro i
    induction i with
    | zero => exact hj
    | succ i ih => rw [hsucc]; exact hpredL _ ih
  have hedge : ∀ i, E (x (i + 1)) (x i) := fun i => by rw [hsucc]; exact hpredE _ (hx i)
  have hwalk : ∀ i d, ReflTransGen E (x (i + d)) (x i) := by
    intro i d
    induction d with
    | zero => exact ReflTransGen.refl
    | succ d ih => exact ih.head (hedge (i + d))
  have hloop : ∀ a b, a < b → x a = x b → FedFromCycle E j := by
    intro a b hab heq
    obtain ⟨d, rfl⟩ := Nat.exists_eq_add_of_lt hab
    have hback := hwalk 0 (a + d + 1)
    rw [Nat.zero_add] at hback
    refine ⟨x (a + d + 1), ?_, hback⟩
    have hround := TransGen.head' (hedge (a + d)) (hwalk a d)
    rwa [heq] at hround
  -- more steps than nodes in the set: two of them meet
  obtain ⟨a, -, b, -, hab, heq⟩ := Finset.exists_ne_map_eq_of_card_lt_of_maps_to
    (s := Finset.range (L.toFinset.card + 1)) (t := L.toFinset) (by simp)
    (f := x) (fun i _ => List.mem_toFinset.2 (hx i))
  rcases Nat.lt_or_gt_of_ne hab with h | h
  · exact hloop a b h heq
  · exact hloop b a h heq.symm

/-- A relation whose edges all go down a rank has no cycle. -/
theorem not_fedFromCycle_of_rank {β : Type} [Preorder β] (κ : α → β)
    (hdesc : ∀ p c, E p c → κ c < κ p) (j : α) : ¬ FedFromCycle E j := by
  rintro ⟨q, hq, -⟩
  have hlt : ∀ {a b}, TransGen E a b → κ b < κ a := by
    intro a b h
    induction h with
    | single h => exact hdesc _ _ h
    | tail _ h ih => exact (hdesc _ _ h).trans ih
  exact lt_irrefl _ (hlt hq)

end Cycles

namespace Step

theorem getD_set_of_lt {l : List Nat} {i : Nat} (hi : i < l.length) (a j : Nat) :
    (l.set i a).getD j 0 = if j = i then a else l.getD j 0 := by
  simp only [List.getD_eq_getElem?_getD, List.getElem?_set]
  by_cases h : j = i
  · subst h
    simp [hi]
  · simp [Ne.symm h, h]

/-- Positions below `n`, each listed once, are fewer than `n` exactly when one is missing. -/
theorem length_lt_iff_exists_not_mem {n : Nat} {seen : List Nat} (hnd : seen.Nodup)
    (hlt : ∀ v ∈ seen, v < n) : seen.length < n ↔ ∃ v < n, v ∉ seen := by
  rw [← List.toFinset_card_of_nodup hnd]
  constructor
  · intro hcard
    by_contra hall
    push Not at hall
    have hsub : Finset.range n ⊆ seen.toFinset := fun v hv =>
      List.mem_toFinset.2 (hall v (Finset.mem_range.1 hv))
    have hle := Finset.card_le_card hsub
    rw [Finset.card_range] at hle
    omega
  · rintro ⟨v, hv, hnot⟩
    have hsub : seen.toFinset ⊆ (Finset.range n).erase v := by
      intro w hw
      rw [List.mem_toFinset] at hw
      exact Finset.mem_erase.2 ⟨fun h => hnot (h ▸ hw), Finset.mem_range.2 (hlt w hw)⟩
    have hle := Finset.card_le_card hsub
    rw [Finset.card_erase_of_mem (Finset.mem_range.2 hv), Finset.card_range] at hle
    omega

theorem mem_consumersOf {edges : List (Nat × Nat)} {p c : Nat} :
    c ∈ consumersOf edges p ↔ (p, c) ∈ edges := by
  simp [consumersOf]

/-- The feeders of `v` not yet visited, counted with the edges. -/
def unvisitedFeeders (edges : List (Nat × Nat)) (seen : List Nat) (v : Nat) : Nat :=
  edges.countP fun e => e.2 == v && !seen.contains e.1

section Feeders

variable {edges : List (Nat × Nat)} {seen : List Nat}

theorem unvisitedFeeders_eq_zero_iff {v : Nat} :
    unvisitedFeeders edges seen v = 0 ↔ ∀ p, (p, v) ∈ edges → p ∈ seen := by
  simp only [unvisitedFeeders, List.countP_eq_zero, Prod.forall]
  constructor
  · intro h p hp
    simpa using h p v hp
  · intro h p c hpc
    by_cases hc : c = v
    · subst hc
      simp [h p hpc]
    · simp [hc]

/-- Visiting `u` takes from the count of each position the edges from `u` into it. -/
theorem unvisitedFeeders_visit {u : Nat} (hu : u ∉ seen) (v : Nat) :
    unvisitedFeeders edges seen v =
      unvisitedFeeders edges (u :: seen) v + (consumersOf edges u).count v := by
  induction edges with
  | nil => simp [unvisitedFeeders, consumersOf]
  | cons e es ih =>
    simp only [unvisitedFeeders, consumersOf] at ih ⊢
    rw [List.countP_cons, List.countP_cons, List.filter_cons, ih]
    by_cases h1 : e.1 = u <;> by_cases h2 : e.2 = v
    · subst h1 h2
      simp [hu]
      omega
    · subst h1
      simp [h2]
    · simp [h1, h2]
      omega
    · simp [h1, h2]

end Feeders

namespace Kahn

/-! ## Releases -/

theorem release_length (st : Kahn) (next : Nat) :
    (release st next).inDegree.length = st.inDegree.length := by
  simp [release]

theorem release_getD (st : Kahn) {next : Nat} (h : next < st.inDegree.length) (v : Nat) :
    (release st next).inDegree.getD v 0 =
      if v = next then st.inDegree.getD next 0 - 1 else st.inDegree.getD v 0 :=
  getD_set_of_lt h _ v

theorem release_queue (st : Kahn) (next : Nat) :
    (release st next).queue =
      if st.inDegree.getD next 0 - 1 = 0 then st.queue ++ [next] else st.queue := by
  simp only [release, beq_iff_eq]

/-- What releasing the positions of `L` in turn makes of the state `st`: each count drops by
the times its position is released, and the positions whose count reaches zero are queued,
once each. -/
structure Released (st : Kahn) (L : List Nat) (st' : Kahn) : Prop where
  length : st'.inDegree.length = st.inDegree.length
  degree : ∀ v, st'.inDegree.getD v 0 = st.inDegree.getD v 0 - L.count v
  visited : st'.visited = st.visited
  queue : ∃ pushed, st'.queue = st.queue ++ pushed ∧ pushed.Nodup ∧
    ∀ v, v ∈ pushed ↔ v ∈ L ∧ st.inDegree.getD v 0 = L.count v

theorem Released.release {st st' : Kahn} {L : List Nat} {x : Nat} (h : Released st L st')
    (hx : x < st.inDegree.length) (hcount : L.count x < st.inDegree.getD x 0) :
    Released st (L ++ [x]) (Kahn.release st' x) := by
  obtain ⟨pushed, hq, hnd, hmem⟩ := h.queue
  have hxp : x ∉ pushed := fun hp => by
    have := (hmem x).1 hp
    omega
  have hcount' : ∀ v, (L ++ [x]).count v = L.count v + if x = v then 1 else 0 := fun v => by
    rw [List.count_append, List.count_singleton']
  refine ⟨by rw [release_length, h.length], fun v => ?_, h.visited, ?_⟩
  · rw [release_getD st' (h.length ▸ hx), h.degree, h.degree, hcount']
    by_cases hv : v = x
    · subst hv
      rw [if_pos rfl, if_pos rfl]
      omega
    · rw [if_neg hv, if_neg (Ne.symm hv), Nat.add_zero]
  · rw [release_queue, h.degree, hq]
    by_cases hzero : st.inDegree.getD x 0 = L.count x + 1
    · rw [if_pos (by omega)]
      refine ⟨pushed ++ [x], by rw [List.append_assoc], ?_, fun v => ?_⟩
      · refine List.nodup_append.2 ⟨hnd, List.nodup_singleton x, fun a ha b hb hab => ?_⟩
        rw [List.mem_singleton] at hb
        exact hxp (hb ▸ hab ▸ ha)
      · rw [List.mem_append, List.mem_singleton, hmem, List.mem_append, List.mem_singleton,
          hcount']
        by_cases hv : v = x
        · subst hv
          rw [if_pos rfl]
          exact ⟨fun _ => ⟨Or.inr rfl, hzero⟩, fun _ => Or.inr rfl⟩
        · rw [if_neg (Ne.symm hv), Nat.add_zero]
          simp only [hv, or_false]
    · rw [if_neg (by omega)]
      refine ⟨pushed, rfl, hnd, fun v => ?_⟩
      rw [hmem, List.mem_append, List.mem_singleton, hcount']
      by_cases hv : v = x
      · subst hv
        rw [if_pos rfl]
        exact ⟨fun hp => absurd ((hmem v).2 hp) hxp, fun hp => absurd hp.2 hzero⟩
      · rw [if_neg (Ne.symm hv), Nat.add_zero]
        simp only [hv, or_false]

/-- Releasing a list of positions, none more often than its count allows. -/
theorem released_foldl (st : Kahn) (L : List Nat) (hL : ∀ v ∈ L, v < st.inDegree.length)
    (hcount : ∀ v, L.count v ≤ st.inDegree.getD v 0) : Released st L (L.foldl release st) := by
  induction L using List.reverseRecOn with
  | nil => exact ⟨rfl, by simp, rfl, [], by simp, List.nodup_nil, by simp⟩
  | append_singleton L x ih =>
    rw [List.foldl_append, List.foldl_cons, List.foldl_nil]
    have hcx := hcount x
    rw [List.count_append, List.count_singleton', if_pos rfl] at hcx
    refine (ih (fun v hv => hL v (List.mem_append_left _ hv)) fun v => ?_).release
      (hL x (List.mem_append_right _ (List.mem_singleton_self x))) hcx
    exact ((List.sublist_append_left L [x]).count_le v).trans (hcount v)

/-! ## The invariant -/

variable {edges : List (Nat × Nat)} {n : Nat}

/-- The invariant of Kahn's loop on `n` positions, with `seen` the positions visited so far,
latest first: the counts are those of the feeders not yet visited; the positions queued or
visited are listed once each and are those whose count is zero; and no position visited lies on
or after a cycle. -/
structure Tracks (edges : List (Nat × Nat)) (n : Nat) (seen : List Nat) (st : Kahn) : Prop where
  length : st.inDegree.length = n
  degree : ∀ v < n, st.inDegree.getD v 0 = unvisitedFeeders edges seen v
  nodup : (st.queue ++ seen).Nodup
  ready : ∀ v, v ∈ st.queue ++ seen ↔ v < n ∧ unvisitedFeeders edges seen v = 0
  visited : st.visited = seen.length
  acyclic : ∀ v ∈ seen, ¬ FedFromCycle (fun p c => (p, c) ∈ edges) v

theorem tracks_start (edges : List (Nat × Nat)) (n : Nat) : Tracks edges n [] (start edges n) where
  length := by simp [start]
  degree v hv := by simp [start, unvisitedFeeders, List.getD_eq_getElem?_getD, hv]
  nodup := by simpa [start] using List.nodup_range.filter _
  ready v := by
    simp only [start, List.append_nil, List.mem_filter, List.mem_range, beq_iff_eq]
    exact and_congr_right fun hv => by
      simp [unvisitedFeeders, List.getD_eq_getElem?_getD, hv]
  visited := rfl
  acyclic := by simp

/-- A position all of whose feeders are visited lies on or after no cycle. -/
theorem Tracks.not_fedFromCycle {seen : List Nat} {st : Kahn} (h : Tracks edges n seen st)
    {v : Nat} (hv : unvisitedFeeders edges seen v = 0) :
    ¬ FedFromCycle (fun p c => (p, c) ∈ edges) v := by
  intro hcyc
  obtain ⟨p, hpv, hp⟩ := hcyc.exists_pred
  exact h.acyclic p (unvisitedFeeders_eq_zero_iff.1 hv p hpv) hp

theorem Tracks.lt_of_mem {seen : List Nat} {st : Kahn} (h : Tracks edges n seen st) {v : Nat}
    (hv : v ∈ seen) : v < n :=
  ((h.ready v).1 (List.mem_append_right _ hv)).1

/-- Visiting the head of the queue keeps the invariant, with the head now seen. -/
theorem Tracks.visit (hE : ∀ p c, (p, c) ∈ edges → p < n ∧ c < n) {seen : List Nat}
    {st : Kahn} {u : Nat} {rest : List Nat} (h : Tracks edges n seen st) (hq : st.queue = u :: rest) :
    Tracks edges n (u :: seen) ((consumersOf edges u).foldl release
      { st with queue := rest, visited := st.visited + 1 }) := by
  have huq : u ∈ st.queue ++ seen := by
    rw [hq]
    exact List.mem_append_left _ List.mem_cons_self
  obtain ⟨hun, hu0⟩ := (h.ready u).1 huq
  have hu : u ∉ seen := fun hs => by
    have hnd := h.nodup
    rw [hq, List.cons_append] at hnd
    exact (List.nodup_cons.1 hnd).1 (List.mem_append_right _ hs)
  have hsplit := @unvisitedFeeders_visit edges seen u hu
  have hrel := released_foldl { st with queue := rest, visited := st.visited + 1 }
    (consumersOf edges u)
    (fun v hv => h.length ▸ (hE u v (mem_consumersOf.1 hv)).2)
    (fun v => by
      by_cases hv : v < n
      · rw [h.degree v hv, hsplit v]
        omega
      · rw [List.count_eq_zero.2 fun hc => hv (hE u v (mem_consumersOf.1 hc)).2]
        omega)
  obtain ⟨pushed, hqueue, hpnd, hpmem⟩ := hrel.queue
  have hdeg := hrel.degree
  dsimp only at hqueue hpmem hdeg
  have hfresh : ∀ v ∈ pushed, v ∉ st.queue ++ seen := by
    intro v hv hold
    obtain ⟨hvc, hv0⟩ := (hpmem v).1 hv
    have hvn := (hE u v (mem_consumersOf.1 hvc)).2
    have hpos := List.count_pos_iff.2 hvc
    rw [h.degree v hvn] at hv0
    have := ((h.ready v).1 hold).2
    omega
  have hmem : ∀ v, v ∈ rest ++ pushed ++ u :: seen ↔ v ∈ pushed ∨ v ∈ st.queue ++ seen := by
    intro v
    simp only [hq, List.mem_append, List.mem_cons]
    tauto
  refine ⟨by rw [hrel.length, h.length], fun v hv => ?_, ?_, fun v => ?_, ?_, ?_⟩
  · rw [hdeg v, h.degree v hv, hsplit v]
    omega
  · rw [hqueue]
    have hperm : (rest ++ pushed ++ u :: seen).Perm (pushed ++ (st.queue ++ seen)) := by
      rw [hq, List.perm_iff_count]
      intro a
      simp only [List.count_append, List.count_cons]
      omega
    refine hperm.nodup_iff.2 (List.nodup_append.2 ⟨hpnd, h.nodup, fun a ha b hb hab => ?_⟩)
    exact hfresh a ha (hab ▸ hb)
  · rw [hqueue, hmem, hpmem]
    constructor
    · rintro (⟨hvc, hv0⟩ | hold)
      · have hvn := (hE u v (mem_consumersOf.1 hvc)).2
        rw [h.degree v hvn, hsplit v] at hv0
        exact ⟨hvn, by omega⟩
      · obtain ⟨hvn, hv0⟩ := (h.ready v).1 hold
        rw [hsplit v] at hv0
        exact ⟨hvn, by omega⟩
    · rintro ⟨hvn, hv0⟩
      by_cases hc : (consumersOf edges u).count v = 0
      · exact Or.inr ((h.ready v).2 ⟨hvn, by rw [hsplit v]; omega⟩)
      · refine Or.inl ⟨List.count_pos_iff.1 (Nat.pos_of_ne_zero hc), ?_⟩
        rw [h.degree v hvn, hsplit v]
        omega
  · rw [hrel.visited, h.visited, List.length_cons]
  · intro v hv
    rcases List.mem_cons.1 hv with rfl | hv
    · exact h.not_fedFromCycle hu0
    · exact h.acyclic v hv

/-- With every position seen, nothing is left to queue. -/
theorem Tracks.queue_eq_nil {seen : List Nat} {st : Kahn} (h : Tracks edges n seen st)
    (hlen : n ≤ seen.length) : st.queue = [] := by
  have hnd := List.nodup_append.1 h.nodup
  have hall : ∀ v < n, v ∈ seen := by
    by_contra hmiss
    push Not at hmiss
    have := (length_lt_iff_exists_not_mem hnd.2.1 fun v hv => h.lt_of_mem hv).2 hmiss
    omega
  refine List.eq_nil_iff_forall_not_mem.2 fun v hv => ?_
  exact hnd.2.2 v hv v (hall v ((h.ready v).1 (List.mem_append_left _ hv)).1) rfl

/-- Each visit sees one more position: the loop stops with an empty queue or with as many more
seen as it had visits. -/
theorem Tracks.drain (hE : ∀ p c, (p, c) ∈ edges → p < n ∧ c < n) :
    ∀ (fuel : Nat) {seen : List Nat} {st : Kahn}, Tracks edges n seen st →
      ∃ seen', Tracks edges n seen' (Kahn.drain edges fuel st) ∧
        ((Kahn.drain edges fuel st).queue = [] ∨ seen'.length = seen.length + fuel)
  | 0, seen, _, h => ⟨seen, h, Or.inr rfl⟩
  | fuel + 1, seen, st, h => by
    unfold Kahn.drain
    split
    · rename_i hq
      exact ⟨seen, h, Or.inl hq⟩
    · rename_i node rest hq
      obtain ⟨seen', h', hend⟩ := Tracks.drain hE fuel (h.visit hE hq)
      refine ⟨seen', h', hend.imp_right fun hlen => ?_⟩
      rw [hlen, List.length_cons]
      omega

/-- As many visits as positions leave the queue empty. -/
theorem drain_start (hE : ∀ p c, (p, c) ∈ edges → p < n ∧ c < n) :
    ∃ seen, Tracks edges n seen (drain edges n (start edges n)) ∧
      (drain edges n (start edges n)).queue = [] := by
  obtain ⟨seen, h, hend⟩ := Tracks.drain hE n (tracks_start edges n)
  refine ⟨seen, h, hend.elim (fun hq => hq) fun hlen => h.queue_eq_nil ?_⟩
  rw [hlen, List.length_nil, Nat.zero_add]

/-! ## What the loop leaves -/

/-- The positions left with a positive count are those on or after a cycle. -/
theorem drain_inDegree_pos_iff (hE : ∀ p c, (p, c) ∈ edges → p < n ∧ c < n) (v : Nat) :
    v < n ∧ 0 < (drain edges n (start edges n)).inDegree.getD v 0 ↔
      FedFromCycle (fun p c => (p, c) ∈ edges) v := by
  obtain ⟨seen, h, hq⟩ := drain_start hE
  have hseen : ∀ w < n, w ∈ seen ↔ unvisitedFeeders edges seen w = 0 := fun w hw => by
    simpa [hq, hw] using h.ready w
  constructor
  · rintro ⟨hv, hpos⟩
    rw [h.degree v hv] at hpos
    -- what is never seen keeps a feeder never seen
    refine fedFromCycle_of_fedWithin (L := (List.range n).filter (· ∉ seen)) (fun j hj => ?_)
      (by simpa [hv, hseen v hv] using hpos.ne')
    obtain ⟨hjn, hjs⟩ := by simpa using hj
    have hne : unvisitedFeeders edges seen j ≠ 0 := fun h0 => hjs ((hseen j hjn).2 h0)
    obtain ⟨p, hpj, hps⟩ := not_forall₂.1 (mt unvisitedFeeders_eq_zero_iff.2 hne)
    exact ⟨p, by simpa [(hE p j hpj).1] using hps, hpj⟩
  · intro hcyc
    obtain ⟨p, hpv, -⟩ := hcyc.exists_pred
    have hv := (hE p v hpv).2
    refine ⟨hv, ?_⟩
    rw [h.degree v hv]
    exact Nat.pos_of_ne_zero fun h0 => h.not_fedFromCycle h0 hcyc

/-- The loop visits fewer than all positions exactly when some position lies on a cycle. -/
theorem drain_visited_lt_iff (hE : ∀ p c, (p, c) ∈ edges → p < n ∧ c < n) :
    (drain edges n (start edges n)).visited < n ↔
      ∃ v, FedFromCycle (fun p c => (p, c) ∈ edges) v := by
  obtain ⟨seen, h, hq⟩ := drain_start hE
  have hnd : seen.Nodup := by simpa [hq] using h.nodup
  rw [h.visited, length_lt_iff_exists_not_mem hnd fun v hv => h.lt_of_mem hv]
  simp only [← drain_inDegree_pos_iff hE]
  refine exists_congr fun v => and_congr_right fun hv => ?_
  rw [h.degree v hv, Nat.pos_iff_ne_zero, ne_eq, not_iff_not]
  simpa [hq, hv] using h.ready v

end Kahn

end Step

end Fabrication
