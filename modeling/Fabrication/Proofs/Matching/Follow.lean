import Mathlib
import Fabrication.Proofs.Matching.Adapt
import Fabrication.Proofs.Matching.WellFormed
import Fabrication.Proofs.Step.Stable

/-!
# Matching a plan follows its jobs

After the matching pass (`matchOrder_passed`), `matchPlan` applies the proposed facility
corrections one key at a time and then, unless nothing was adapted or corrected, recalculates
the steps with those pinned whose jobs ran exactly their runs. This module follows a step
through both stages.

* Recalculation keeps the counts of every member of a logical step with a pinned member
  (`recalculate_keeps_pinned`), and `pinnedSteps` pins each step whose jobs ran exactly its
  runs, at least one (`mem_pinnedSteps`).
* Corrections under distinct keys take in disjoint steps, so each step ends with what the
  correction under its own key did to it (`foldlM_applyCorrection_at`, `Corrected`).

`matchPlan_follows_jobs` puts these together for plans whose steps have distinct identifiers,
none of them naming a split group, and whose copies are not split: a step whose jobs ran a
positive number of runs ends with those runs; an adapted step ends with the units its runs make,
pinned, and its split group keeps its runs; and every step under a key with a drifting job is
moved to the facility of the latest such job, or keeps its bonus when that facility has none.
-/

namespace Fabrication

open Step

theorem Count.sum?_of_lt {xs : List Nat} (h : xs.sum < Count.bound) : Count.sum? xs = .ok xs.sum := by
  unfold Count.sum? Count.check
  exact if_pos h

theorem Ident.mem_sortedSet {x : Ident} (xs : List Ident) : x ∈ Ident.sortedSet xs ↔ x ∈ xs := by
  suffices h : ∀ acc : List Ident,
      x ∈ xs.foldl (fun acc y => Ident.insertSorted y acc) acc ↔ x ∈ acc ∨ x ∈ xs by
    simpa [Ident.sortedSet] using h []
  induction xs with
  | nil => simp
  | cons y ys ih =>
    intro acc
    rw [List.foldl_cons, ih, Ident.mem_insertSorted, List.mem_cons]
    tauto

namespace Step

/-- Lists that agree under a view agree under it at every position. -/
theorem view_stepAt_of_map {v : Step → Step} {st st' : List Step} (h : st'.map v = st.map v)
    {p : Nat} (hp : p < st.length) : v (stepAt st' p) = v (stepAt st p) := by
  have hp' : p < st'.length := by
    simpa [(by simpa using congrArg List.length h : st'.length = st.length)] using hp
  have hat := congrArg (·[p]?) h
  simp only [List.getElem?_map, List.getElem?_eq_getElem hp, List.getElem?_eq_getElem hp',
    Option.map_some, Option.some.injEq] at hat
  simpa [stepAt, hp, hp'] using hat

/-- Lists that agree under a view find, by a test the view keeps, steps that agree under it. -/
theorem exists_find?_of_map_view {v : Step → Step} {L L' : List Step} (h : L.map v = L'.map v)
    {t : Step → Bool} (ht : ∀ u, t (v u) = t u) {a : Step} (ha : L.find? t = some a) :
    ∃ b, L'.find? t = some b ∧ v b = v a := by
  have hfun : t ∘ v = t := funext ht
  have hfind : (L.find? t).map v = (L'.find? t).map v := by
    calc (L.find? t).map v = (L.map v).find? t := by rw [List.find?_map, hfun]
      _ = (L'.map v).find? t := by rw [h]
      _ = (L'.find? t).map v := by rw [List.find?_map, hfun]
  rw [ha] at hfind
  cases hb : L'.find? t with
  | none => simp [hb] at hfind
  | some b =>
    rw [hb, Option.map_some, Option.map_some, Option.some.injEq] at hfind
    exact ⟨b, rfl, hfind.symm⟩

theorem underKey_sansCounts (key : Ident) (u : Step) : underKey key (sansCounts u) = underKey key u := by
  simp only [underKey, group_sansCounts]
  rfl

/-- Steps that agree but for what edits change have one identifier, group, activity and counts. -/
theorem fields_of_styleless {a b : Step} (h : styleless a = styleless b) :
    a.id = b.id ∧ a.group = b.group ∧ a.isCopy = b.isCopy ∧ a.runs = b.runs ∧
      a.quantity = b.quantity :=
  ⟨(congrArg Step.id h :), (congrArg Step.group h :), (congrArg Step.isCopy h :),
    (congrArg Step.runs h :), (congrArg Step.quantity h :)⟩

section Adapt

variable (s : Step) (matched : Nat)

@[simp] theorem id_adaptTo : (s.adaptTo matched).id = s.id := by
  unfold adaptTo
  split <;> rfl

@[simp] theorem group_adaptTo : (s.adaptTo matched).group = s.group := by
  unfold adaptTo
  split <;> rfl

@[simp] theorem isCopy_adaptTo : (s.adaptTo matched).isCopy = s.isCopy := by
  unfold adaptTo
  split <;> rfl

@[simp] theorem bonus_adaptTo : (s.adaptTo matched).bonus = s.bonus := by
  unfold adaptTo
  split <;> rfl

@[simp] theorem underKey_adaptTo (key : Ident) : underKey key (s.adaptTo matched) = underKey key s := by
  unfold adaptTo
  split <;> rfl

end Adapt

/-- Among steps with distinct identifiers, none naming a split group, a key that some step
has takes in exactly the steps with that key. -/
theorem underKey_iff {L : List Step} {key : Ident} (hids : (L.map Step.id).Nodup)
    (hapart : ∀ s ∈ L, ∀ t ∈ L, t.group ≠ some s.id) (hkey : ∃ u ∈ L, u.correctionKey = key)
    {t : Step} (ht : t ∈ L) : underKey key t = true ↔ t.correctionKey = key := by
  obtain ⟨u, hu, hukey⟩ := hkey
  have hkey' : ∃ u ∈ L, key = u.group.getD u.id := ⟨u, hu, hukey.symm⟩
  unfold underKey correctionKey
  cases hg : t.group with
  | none => simp
  | some g =>
    have hid : t.id ≠ key := id_ne_key hids hapart hkey' ht (by simp [hg])
    simp [hid]

section Pinned

variable {S : List Step} {B : RecipeBook} {P : List Ident} {owner : Nat → Option Nat}

/-- One step of the loop over logical steps keeps the counts of the members of a pinned logical
step: it reassigns the members of its own logical step only, and a pinned one not at all. -/
theorem recalculateLogical_keeps_pinned {l : Logical} (hl : l ∈ logicalSteps S)
    (hpin : l.isPinned S P = true) {x : Logical × Nat} (hx : x.1 ∈ logicalSteps S)
    {acc acc' : List Step × DirtySet × List (Nat × Nat)} (hst : acc.1.map sansCounts = S.map sansCounts)
    (h : recalculateLogical B P owner acc x = .ok acc') {m : Nat} (hm : m ∈ l.members) :
    acc'.1.map sansCounts = S.map sansCounts ∧ (stepAt acc'.1 m).runs = (stepAt acc.1 m).runs ∧
      (stepAt acc'.1 m).quantity = (stepAt acc.1 m).quantity := by
  obtain ⟨st, d, dem⟩ := acc
  obtain ⟨l', k⟩ := x
  unfold recalculateLogical at h
  obtain ⟨⟨st', d'⟩, hre, h⟩ := ok_of_bind h
  obtain ⟨dem', -, h⟩ := ok_of_bind h
  cases h
  obtain ⟨hR, -, hsame⟩ := reassignLogical_spec hre hst (members_nodup hx) (members_ne_nil hx)
    fun m hm => (mem_members hx hm).1
  by_cases hll : l' = l
  · subst hll
    obtain rfl := hsame fun hc => by
      rw [hpin] at hc
      cases hc.1
    exact ⟨hst, rfl, rfl⟩
  · have hnot : m ∉ l'.members := fun hm' => hll (eq_of_mem_members hx hl hm' hm)
    exact ⟨hR.frame.trans hst, hR.runs m hnot, hR.quantity m hnot⟩

/-- Recalculation changes nothing but counts and group totals, and keeps the runs and quantity
of every member of a logical step with a pinned member. -/
theorem recalculate_keeps_pinned {r : Recalculation} (h : recalculate S B P = .ok r) :
    r.steps.map sansCounts = S.map sansCounts ∧
      ∀ l ∈ logicalSteps S, l.isPinned S P = true → ∀ m ∈ l.members,
        (stepAt r.steps m).runs = (stepAt S m).runs ∧
          (stepAt r.steps m).quantity = (stepAt S m).quantity := by
  unfold recalculate at h
  obtain ⟨⟨st₁, d₁, dem⟩, hloop, h⟩ := ok_of_bind h
  obtain ⟨st₂, hheal, h⟩ := ok_of_bind h
  obtain ⟨⟨st₃, d₃⟩, hcopy, h⟩ := ok_of_bind h
  obtain rfl : r = ⟨st₃, d₃.ids⟩ := by
    cases h
    rfl
  obtain ⟨hframe, -, hkeep, -⟩ := finish_spec (recalculateLoop_frame hloop) hheal hcopy
  refine ⟨hframe, fun l hl hpin m hm => ?_⟩
  -- the loop keeps the member's counts, and the later stages keep what the loop gave it
  have hloopKeeps := foldlM_invariant (fun acc : List Step × DirtySet × List (Nat × Nat) =>
      acc.1.map sansCounts = S.map sansCounts ∧ (stepAt acc.1 m).runs = (stepAt S m).runs ∧
        (stepAt acc.1 m).quantity = (stepAt S m).quantity) hloop ⟨rfl, rfl, rfl⟩
    fun acc x acc' hx hacc hstep => by
      obtain ⟨hst', hruns', hqty'⟩ := recalculateLogical_keeps_pinned hl hpin
        (List.fst_mem_of_mem_zipIdx hx) hacc.1 hstep hm
      exact ⟨hst', hruns'.trans hacc.2.1, hqty'.trans hacc.2.2⟩
  obtain ⟨hr, hq⟩ := hkeep m (mem_members hl hm).2
  exact ⟨hr.trans hloopKeeps.2.1, hq.trans hloopKeeps.2.2⟩

end Pinned

end Step

section Pins

/-- The entry of an identifier in a tally. -/
def tallyOf (t : List (Ident × Nat)) (id : Ident) : Option Nat := (t.find? (·.1 == id)).map (·.2)

theorem exists_of_matchedTotal_pos {ms : List StepMatch} {id : Ident} (h : 0 < matchedTotal ms id) :
    ∃ m ∈ ms, m.step = id := by
  by_contra hnone
  rw [matchedTotal_eq_zero fun m hm hstep => hnone ⟨m, hm, hstep⟩] at h
  exact absurd h (Nat.lt_irrefl 0)

theorem matchedTotal_cons (m : StepMatch) (ms : List StepMatch) (id : Ident) :
    matchedTotal (m :: ms) id = (if m.step = id then m.runs else 0) + matchedTotal ms id := by
  by_cases h : m.step = id <;> simp [matchedTotal, h]

/-- Adding each match's runs to the entry of its step, as `pinnedSteps` does, leaves every
identifier with its entry plus the runs matched to it, and with an entry once a match names
it. -/
theorem foldlM_tally {F : List (Ident × Nat) → StepMatch → Except Fault (List (Ident × Nat))}
    (hF : ∀ t m t', F t m = .ok t' → t' = putEntry m.step ((tallyOf t m.step).getD 0 + m.runs) t) :
    ∀ (ms : List StepMatch) (t r : List (Ident × Nat)), ms.foldlM F t = .ok r → ∀ i,
      (tallyOf r i).getD 0 = (tallyOf t i).getD 0 + matchedTotal ms i ∧
        ((tallyOf r i).isSome ↔ (tallyOf t i).isSome ∨ ∃ m ∈ ms, m.step = i)
  | [], t, r, h, i => by
    cases h
    simp [matchedTotal]
  | m :: ms, t, r, h, i => by
    rw [List.foldlM_cons] at h
    obtain ⟨t', ht', h⟩ := ok_of_bind h
    obtain ⟨hsum, hsome⟩ := foldlM_tally hF ms t' r h i
    have hput : tallyOf t' i =
        if i = m.step then some ((tallyOf t m.step).getD 0 + m.runs) else tallyOf t i := by
      rw [hF t m t' ht']
      exact lookup_putEntry _ _ _ _
    rw [hsum, hsome, hput, matchedTotal_cons]
    by_cases hid : i = m.step
    · subst hid
      simp only [if_true, Option.getD_some, Option.isSome_some, true_or, true_iff]
      refine ⟨by omega, .inr ⟨m, List.mem_cons_self, rfl⟩⟩
    · rw [if_neg hid, if_neg (Ne.symm hid), zero_add]
      refine ⟨rfl, ?_⟩
      simp only [List.mem_cons]
      constructor
      · rintro (h | ⟨x, hx, hxid⟩)
        · exact .inl h
        · exact .inr ⟨x, .inr hx, hxid⟩
      · rintro (h | ⟨x, rfl | hx, hxid⟩)
        · exact .inl h
        · exact absurd hxid.symm hid
        · exact .inr ⟨x, hx, hxid⟩

/-- `pinnedSteps` pins every step whose matched jobs ran exactly its runs, at least one. -/
theorem mem_pinnedSteps {steps : List Step} {ms : List StepMatch} {P : List Ident}
    (h : pinnedSteps steps ms = .ok P) {s : Step} (hs : s ∈ steps) (hpos : 0 < s.runs)
    (hexact : matchedTotal ms s.id = s.runs) : s.id ∈ P := by
  unfold pinnedSteps at h
  obtain ⟨t, ht, h⟩ := ok_of_bind h
  cases h
  obtain ⟨hsum, hsome⟩ := foldlM_tally (fun t m t' h => by
      obtain ⟨total, htotal, h⟩ := ok_of_bind h
      cases h
      rw [Count.eq_of_add?_ok htotal]
      rfl) ms [] t ht s.id
  obtain ⟨v, hv⟩ := Option.isSome_iff_exists.1
    (hsome.2 (.inr (exists_of_matchedTotal_pos (hexact ▸ hpos))))
  have hvruns : v = s.runs := by
    rw [hv] at hsum
    simpa [tallyOf, hexact] using hsum
  rw [Ident.mem_sortedSet]
  refine List.mem_map.2 ⟨s, List.mem_filter.2 ⟨hs, ?_⟩, rfl⟩
  simp only [tallyOf] at hv
  simp [hpos, hv, hvruns]

/-- Whether `pinnedSteps` succeeds depends on the matches only. -/
theorem pinnedSteps_ok_of_ok {steps : List Step} {ms : List StepMatch} {P : List Ident}
    (h : pinnedSteps steps ms = .ok P) (steps' : List Step) :
    ∃ P', pinnedSteps steps' ms = .ok P' := by
  unfold pinnedSteps at h ⊢
  obtain ⟨t, ht, -⟩ := ok_of_bind h
  rw [ht]
  exact ⟨_, rfl⟩

/-- Recalculating with the exactly matched steps pinned keeps the counts of every member of the
logical step of a step whose matched jobs ran exactly its runs, at least one. -/
theorem recalculate_keeps_exact {steps : List Step} {book : RecipeBook} {ms : List StepMatch}
    {P : List Ident} {r : Recalculation} (hP : pinnedSteps steps ms = .ok P)
    (hr : recalculate steps book P = .ok r) {l : Logical} (hl : l ∈ logicalSteps steps) {p : Nat}
    (hp : p ∈ l.members) (hpos : 0 < (stepAt steps p).runs)
    (hexact : matchedTotal ms (stepAt steps p).id = (stepAt steps p).runs) :
    ∀ m ∈ l.members, (stepAt r.steps m).runs = (stepAt steps m).runs ∧
      (stepAt r.steps m).quantity = (stepAt steps m).quantity := by
  have hpin : l.isPinned steps P = true := by
    unfold Logical.isPinned
    refine List.any_eq_true.2 ⟨p, hp, ?_⟩
    simpa using mem_pinnedSteps hP (stepAt_mem (mem_members hl hp).1) hpos hexact
  exact (recalculate_keeps_pinned hr).2 l hl hpin

end Pins

section Corrections

variable {res : Resolver} {user : Nat}

/-- What a facility correction `c`, under a key whose first step is `head`, does to a step that
was `before` and ends as `after`: it moves it to the corrected facility with the bonus resolved
there for the head's product, or leaves its bonus when that facility has none. -/
def Corrected (res : Resolver) (user : Nat) (head : Step) (c : Correction) (before after : Step) :
    Prop :=
  (∃ b, res.bonusAt c.facility head.product head.activity.isConversion user = .ok b ∧
      after.bonus = ⟨b.material, b.time, some c.facility⟩) ∨
    ∃ e, res.bonusAt c.facility head.product head.activity.isConversion user =
        .error (.rejected (.bonusUnavailable e)) ∧ after.bonus = before.bonus

theorem Corrected.of_bonus {head : Step} {c : Correction} {before after after' : Step}
    (h : Corrected res user head c before after) (hb : after'.bonus = after.bonus) :
    Corrected res user head c before after' := by
  rcases h with ⟨b, hres, hafter⟩ | ⟨e, hres, hafter⟩
  · exact .inl ⟨b, hres, hb.trans hafter⟩
  · exact .inr ⟨e, hres, hb.trans hafter⟩

/-- A correction reads of its head the product and the activity only. -/
theorem Corrected.of_head {head head' : Step} {c : Correction} {before after : Step}
    (h : Corrected res user head c before after) (hprod : head'.product = head.product)
    (hact : head'.activity = head.activity) : Corrected res user head' c before after := by
  unfold Corrected
  rw [hprod, hact]
  exact h

/-- A facility correction changes no step but those under its key, and those only in what
edits change; each of them is `Corrected`, with the first step under the key as head. -/
theorem applyCorrection_at {acc acc' : List Step × List Ident × List String}
    {e : Ident × Correction} (h : applyCorrection res user acc e = .ok acc') :
    acc'.1.map styleless = acc.1.map styleless ∧
      ∀ q < acc.1.length,
        (underKey e.1 (stepAt acc.1 q) = false → stepAt acc'.1 q = stepAt acc.1 q) ∧
        (underKey e.1 (stepAt acc.1 q) = true → ∃ head, acc.1.find? (underKey e.1) = some head ∧
          Corrected res user head e.2 (stepAt acc.1 q) (stepAt acc'.1 q)) := by
  obtain ⟨steps, corrected, messages⟩ := acc
  obtain ⟨key, c⟩ := e
  unfold applyCorrection at h
  dsimp only at h
  split at h
  · rename_i hnone
    cases h
    refine ⟨rfl, fun q hq => ⟨fun _ => rfl, fun hunder => ?_⟩⟩
    exact absurd hunder (by simpa using List.find?_eq_none.1 hnone _ (stepAt_mem hq))
  · rename_i head hhead
    split at h
    · rename_i err hunavailable
      cases h
      exact ⟨rfl, fun q _ => ⟨fun _ => rfl, fun _ => ⟨head, hhead, .inr ⟨err, hunavailable, rfl⟩⟩⟩⟩
    · cases h
    · rename_i b hb
      cases h
      refine ⟨map_styleless_restyled fun s _ => ?_, fun q hq => ?_⟩
      · split
        · exact styleless_moved s b _
        · rfl
      · rw [stepAt_map_of_lt hq]
        refine ⟨fun hoff => by simp [hoff], fun hon => ⟨head, hhead, .inl ⟨b, hb, ?_⟩⟩⟩
        simp [hon, Step.bonus, Step.applyBonus]

variable {T : List Step} {key : Nat → Ident}

/-- Corrections under distinct keys, each taking in exactly the positions `key` gives it, leave
every step with what the correction under its own key did to it, and the bonus of a step under
none of their keys as it was. -/
theorem foldlM_applyCorrection_at :
    ∀ (cs : List (Ident × Correction)) (acc r : List Step × List Ident × List String),
      (cs.map (·.1)).Nodup →
      (∀ e ∈ cs, ∀ q < T.length, underKey e.1 (stepAt T q) = true ↔ key q = e.1) →
      acc.1.map styleless = T.map styleless →
      cs.foldlM (applyCorrection res user) acc = .ok r →
      r.1.map styleless = T.map styleless ∧ ∀ q < T.length,
        ((∀ e ∈ cs, e.1 ≠ key q) → (stepAt r.1 q).bonus = (stepAt acc.1 q).bonus) ∧
        ∀ e ∈ cs, e.1 = key q → ∃ head, T.find? (underKey e.1) = some head ∧
          Corrected res user head e.2 (stepAt acc.1 q) (stepAt r.1 q)
  | [], acc, r, _, _, hacc, h => by
    cases h
    exact ⟨hacc, fun q _ => ⟨fun _ => rfl, fun e he => by cases he⟩⟩
  | e :: cs, acc, r, hnd, hunder, hacc, h => by
    rw [List.foldlM_cons] at h
    obtain ⟨acc₁, h₁, h⟩ := ok_of_bind h
    obtain ⟨hsty₁, hat₁⟩ := applyCorrection_at h₁
    obtain ⟨hfresh, hnd'⟩ := List.nodup_cons.1 hnd
    obtain ⟨hsty, hrest⟩ := foldlM_applyCorrection_at cs acc₁ r hnd'
      (fun e' he' => hunder e' (List.mem_cons_of_mem _ he')) (hsty₁.trans hacc) h
    have hlen : acc.1.length = T.length := by simpa using congrArg List.length hacc
    refine ⟨hsty, fun q hq => ?_⟩
    have hunder_q : underKey e.1 (stepAt acc.1 q) = true ↔ key q = e.1 := by
      have hview : underKey e.1 (styleless (stepAt acc.1 q)) = underKey e.1 (styleless (stepAt T q)) :=
        by rw [view_stepAt_of_map hacc hq]
      exact hview.symm ▸ hunder e List.mem_cons_self q hq
    have hoff : e.1 ≠ key q → underKey e.1 (stepAt acc.1 q) = false := fun hne => by
      cases hu : underKey e.1 (stepAt acc.1 q)
      · rfl
      · exact absurd (hunder_q.1 hu).symm hne
    obtain ⟨hkeep₁, hmove₁⟩ := hat₁ q (hlen ▸ hq)
    obtain ⟨hkeep, hmove⟩ := hrest q hq
    refine ⟨fun hne => ?_, fun e' he' hkey => ?_⟩
    · rw [hkeep fun e' he' => hne e' (List.mem_cons_of_mem _ he'),
        hkeep₁ (hoff (hne e List.mem_cons_self))]
    · rcases List.mem_cons.1 he' with rfl | he'
      · obtain ⟨head, hhead, hcorr⟩ := hmove₁ (hunder_q.2 hkey.symm)
        have hlater : ∀ x ∈ cs, x.1 ≠ key q := fun x hx hxq =>
          hfresh (List.mem_map.2 ⟨x, hx, hxq.trans hkey.symm⟩)
        obtain ⟨head', hhead', hsame⟩ := exists_find?_of_map_view hacc (fun _ => rfl) hhead
        have hprod : head'.product = head.product :=
          (congrArg Step.product hsame : (styleless head').product = _)
        have hact : head'.activity = head.activity :=
          (congrArg Step.activity hsame : (styleless head').activity = _)
        exact ⟨head', hhead', (hcorr.of_bonus (hkeep hlater)).of_head hprod hact⟩
      · have hne : e.1 ≠ key q := fun heq =>
          hfresh (List.mem_map.2 ⟨e', he', hkey.trans heq.symm⟩)
        rw [← hkeep₁ (hoff hne)]
        exact hmove e' he' hkey

/-- Corrections change no step but in what edits change. -/
theorem foldlM_applyCorrection_styleless {cs : List (Ident × Correction)}
    {acc r : List Step × List Ident × List String}
    (h : cs.foldlM (applyCorrection res user) acc = .ok r) : r.1.map styleless = acc.1.map styleless :=
  foldlM_invariant (fun x : List Step × List Ident × List String =>
    x.1.map styleless = acc.1.map styleless) h rfl fun _ _ _ _ hx hstep =>
      (applyCorrection_at hstep).1.trans hx

end Corrections

theorem correctionFor_of_mem {cs : List (Ident × Correction)} (hnd : (cs.map (·.1)).Nodup)
    {e : Ident × Correction} (he : e ∈ cs) : correctionFor cs e.1 = some e.2 := by
  rw [correctionFor, find?_key_of_mem Prod.fst hnd he]
  rfl

theorem mem_of_correctionFor {cs : List (Ident × Correction)} {k : Ident} {c : Correction}
    (h : correctionFor cs k = some c) : (k, c) ∈ cs := by
  obtain ⟨e, he, rfl⟩ := Option.map_eq_some_iff.1 h
  have hk : e.1 = k := by simpa using List.find?_some he
  rw [← hk]
  exact List.mem_of_find?_eq_some he

namespace MatchState

variable {world : World} {S : List Step} {done : List Nat} {st : MatchState}

/-- After the pass, the steps are the plan's but for their counts. -/
theorem Passed.frame (hp : Passed world S done st) : st.steps.map sansCounts = S.map sansCounts := by
  refine List.ext_getElem (by simp [hp.length]) fun k h₁ h₂ => ?_
  have hk : k < st.steps.length := by simpa using h₁
  have hk' : k < S.length := by simpa using h₂
  have hat := hp.steps k hk'
  simp only [stepAt, List.getD_eq_getElem _ _ hk, List.getD_eq_getElem _ _ hk'] at hat
  rw [List.getElem_map, List.getElem_map, hat, sansCounts_adaptTo]

/-- A step with matched runs is no copy: the pass skips copies. -/
theorem Passed.isCopy_of_pos (hp : Passed world S done st) (hids : (S.map Step.id).Nodup)
    {p : Nat} (hpl : p < S.length) (hpos : 0 < matchedTotal st.assignments (stepAt S p).id) :
    (stepAt S p).isCopy = false := by
  obtain ⟨m, hm, hmid⟩ := exists_of_matchedTotal_pos hpos
  obtain ⟨p', -, hp', hstep, hcopy⟩ := hp.named m hm
  rw [eq_of_id_eq hids hpl hp' (hmid.symm.trans hstep)]
  exact hcopy

end MatchState

section Plan

variable {config : EngineConfig} {plan : Plan} {book : RecipeBook} {scope : MatchScope}
  {claimed claimed' : List Nat} {world : World} {res : Resolver} {o : MatchOutcome}

/-- Matching a plan runs the pass, applies the sorted corrections, and then, unless nothing was
adapted or corrected, recalculates with the exactly matched steps pinned. -/
theorem matchPlan_stages (h : matchPlan config plan book scope claimed world res = .ok (o, claimed')) :
    ∃ st mid corrected messages,
      (matchOrder plan.steps).foldlM (Fabrication.matchStep config plan.id world scope)
        ({ steps := plan.steps, claimed } : MatchState) = .ok st ∧
      (sortBy (fun a b => !(Ident.lt b.1 a.1)) st.corrections).foldlM
        (applyCorrection res scope.user) (st.steps, [], st.messages) = .ok (mid, corrected, messages) ∧
      o.assignments = st.assignments ∧ o.adapted = st.adapted ∧ o.corrected = corrected ∧
      claimed' = st.claimed ∧ ((st.adapted = [] ∧ o.steps = mid) ∨
        ∃ P r, pinnedSteps mid st.assignments = .ok P ∧ recalculate mid book P = .ok r ∧
          o.steps = r.steps) := by
  unfold matchPlan at h
  obtain ⟨st, hst, h⟩ := ok_of_bind h
  obtain ⟨⟨mid, corrected, messages⟩, hc, h⟩ := ok_of_bind h
  refine ⟨st, mid, corrected, messages, ok_of_ofFault hst, hc, ?_⟩
  dsimp only at h
  split at h
  · rename_i hnone
    cases h
    simp only [Bool.and_eq_true, List.isEmpty_iff] at hnone
    exact ⟨rfl, rfl, rfl, rfl, .inl ⟨hnone.1, rfl⟩⟩
  · obtain ⟨recalc, hrecalc, h⟩ := ok_of_bind h
    cases h
    obtain ⟨P, hP, hr⟩ := ok_of_bind (ok_of_ofFault hrecalc)
    exact ⟨rfl, rfl, rfl, rfl, .inr ⟨P, recalc, hP, hr, rfl⟩⟩

/-- A step with matched runs ends with them, also through the recalculation, which pins it. -/
theorem matchPlan_runs_of_matched (hpolicy : config.matchPolicy = .onAnyDifference)
    (hids : (plan.steps.map Step.id).Nodup) (hjobs : (world.jobs.map (·.id)).Nodup)
    (h : matchPlan config plan book scope claimed world res = .ok (o, claimed')) {p : Nat}
    (hpl : p < plan.steps.length) (hpos : 0 < matchedTotal o.assignments (stepAt plan.steps p).id) :
    (stepAt o.steps p).runs = matchedTotal o.assignments (stepAt plan.steps p).id := by
  obtain ⟨st, mid, corrected, messages, hst, hc, hms, -, -, -, hsteps⟩ := matchPlan_stages h
  obtain ⟨done, hp⟩ := matchOrder_passed hpolicy hids hjobs hst
  rw [hms] at hpos ⊢
  have hview : mid.map styleless = st.steps.map styleless := foldlM_applyCorrection_styleless hc
  have hlen : mid.length = plan.steps.length := by
    rw [← hp.length]
    simpa using congrArg List.length hview
  obtain ⟨hid, -, hcopy, hruns, -⟩ := fields_of_styleless (view_stepAt_of_map hview (hp.length ▸ hpl))
  rw [hp.steps p hpl] at hid hcopy hruns
  rw [id_adaptTo] at hid
  rw [isCopy_adaptTo] at hcopy
  rw [adaptTo_runs, if_pos hpos] at hruns
  rcases hsteps with ⟨-, hout⟩ | ⟨P, r, hP, hr, hout⟩
  · rw [hout, hruns]
  · obtain ⟨l, hl, hpm⟩ := exists_mem_members (hlen ▸ hpl) (hcopy.trans (hp.isCopy_of_pos hids hpl hpos))
    have hexact : matchedTotal st.assignments (stepAt mid p).id = (stepAt mid p).runs := by
      rw [hid, hruns]
    rw [hout, (recalculate_keeps_exact hP hr hl hpm (hruns ▸ hpos) hexact p hpm).1, hruns]

/-- Every step whose jobs ran a positive number of runs ends with those runs; an adapted step
ends with the units its runs make, held at the largest count, and is pinned, and the members of
its split group without matched runs keep their runs. -/
theorem matchPlan_keeps_matched_runs (hpolicy : config.matchPolicy = .onAnyDifference)
    (hids : (plan.steps.map Step.id).Nodup)
    (hcopies : ∀ s ∈ plan.steps, s.isCopy = true → s.split = none)
    (hjobs : (world.jobs.map (·.id)).Nodup)
    (h : matchPlan config plan book scope claimed world res = .ok (o, claimed')) :
    ∀ p < plan.steps.length, ∃ M, o.matchedRuns (stepAt plan.steps p).id = .ok M ∧
      (0 < M → (stepAt o.steps p).runs = M) ∧
      ((stepAt plan.steps p).id ∈ o.adapted ↔ 0 < M ∧ M ≠ (stepAt plan.steps p).runs) ∧
      ((stepAt plan.steps p).id ∈ o.adapted →
        (stepAt o.steps p).quantity = Count.satMul M (stepAt plan.steps p).out ∧
        (∃ P, pinnedSteps o.steps o.assignments = .ok P ∧ (stepAt plan.steps p).id ∈ P) ∧
        ∀ q < plan.steps.length, (stepAt plan.steps q).group = (stepAt plan.steps p).group →
          (stepAt plan.steps p).group.isSome → o.matchedRuns (stepAt plan.steps q).id = .ok 0 →
          (stepAt o.steps q).runs = (stepAt plan.steps q).runs) := by
  obtain ⟨st, mid, corrected, messages, hst, hc, hms, hadapted, -, -, hsteps⟩ := matchPlan_stages h
  obtain ⟨done, hp⟩ := matchOrder_passed hpolicy hids hjobs hst
  set S := plan.steps with hS
  set total := matchedTotal st.assignments with htotal
  have hview : mid.map styleless = st.steps.map styleless := foldlM_applyCorrection_styleless hc
  have hlen : mid.length = S.length := by
    rw [← hp.length]
    simpa using congrArg List.length hview
  have hat : ∀ q < S.length, styleless (stepAt mid q) =
      styleless ((stepAt S q).adaptTo (total (stepAt S q).id)) := fun q hq => by
    rw [view_stepAt_of_map hview (hp.length ▸ hq), hp.steps q hq]
  have hmatched : ∀ q, o.matchedRuns (stepAt S q).id = .ok (total (stepAt S q).id) := fun q => by
    unfold MatchOutcome.matchedRuns
    rw [hms]
    exact Count.sum?_of_lt (hp.fits _)
  have hkeep : ∀ l ∈ logicalSteps mid, ∀ p ∈ l.members, 0 < (stepAt mid p).runs →
      total (stepAt mid p).id = (stepAt mid p).runs → ∀ m ∈ l.members,
        (stepAt o.steps m).runs = (stepAt mid m).runs ∧
          (stepAt o.steps m).quantity = (stepAt mid m).quantity := by
    intro l hl p hp' hpos hexact m hm
    rcases hsteps with ⟨-, hmid⟩ | ⟨P, r, hP, hr, hout⟩
    · rw [hmid]
      exact ⟨rfl, rfl⟩
    · rw [hout]
      exact recalculate_keeps_exact hP hr hl hp' hpos hexact m hm
  intro p hpl
  set s := stepAt S p with hs
  obtain ⟨hid, hgroup_p, hcopy_p, hruns, hqty⟩ := fields_of_styleless (hat p hpl)
  simp only [id_adaptTo, group_adaptTo, isCopy_adaptTo] at hid hgroup_p hcopy_p
  refine ⟨total s.id, hmatched p, ?_⟩
  have hlogical : 0 < total s.id → ∃ l ∈ logicalSteps mid, p ∈ l.members ∧ ∀ m ∈ l.members,
      (stepAt o.steps m).runs = (stepAt mid m).runs ∧
        (stepAt o.steps m).quantity = (stepAt mid m).quantity := fun hpos => by
    obtain ⟨l, hl, hpm⟩ := exists_mem_members (hlen ▸ hpl)
      (hcopy_p.trans (hp.isCopy_of_pos hids hpl hpos))
    have hpos' : 0 < (stepAt mid p).runs := by
      rw [hruns, adaptTo_runs, if_pos hpos]
      exact hpos
    refine ⟨l, hl, hpm, hkeep l hl p hpm hpos' ?_⟩
    rw [hid, hruns, adaptTo_runs, if_pos hpos]
  have hadapted_iff : s.id ∈ o.adapted ↔ 0 < total s.id ∧ total s.id ≠ s.runs := by
    rw [hadapted, hp.adapted]
    constructor
    · rintro ⟨p', hp', hid', hpos, hne⟩
      obtain rfl := eq_of_id_eq hids hp' hpl hid'
      exact ⟨hpos, hne⟩
    · rintro ⟨hpos, hne⟩
      exact ⟨p, hpl, rfl, hpos, hne⟩
  refine ⟨fun hpos => ?_, hadapted_iff, fun hin => ?_⟩
  · have hkept := matchPlan_runs_of_matched hpolicy hids hjobs h hpl
    rw [hms] at hkept
    exact hkept hpos
  obtain ⟨hpos, hne⟩ := hadapted_iff.1 hin
  obtain ⟨l, hl, hpm, hlk⟩ := hlogical hpos
  refine ⟨?_, ?_, fun q hq hgroup hsome hzero => ?_⟩
  · rw [(hlk p hpm).2, hqty]
    unfold adaptTo
    rw [if_pos ⟨hpos, hne⟩]
  · rcases hsteps with ⟨hnone, -⟩ | ⟨P, r, hP, hr, hout⟩
    · rw [hadapted, hnone] at hin
      cases hin
    obtain ⟨P', hP'⟩ := pinnedSteps_ok_of_ok hP o.steps
    rw [hms]
    have hframe : o.steps.map sansCounts = mid.map sansCounts := hout ▸ (recalculate_keeps_pinned hr).1
    have hlen' : p < o.steps.length := by
      rw [show o.steps.length = mid.length by simpa using congrArg List.length hframe, hlen]
      exact hpl
    have hid' : (stepAt o.steps p).id = s.id :=
      ((congrArg Step.id (sansCounts_stepAt_of_map hframe p) :)).trans hid
    have hruns' : (stepAt o.steps p).runs = total s.id := by
      rw [(hlk p hpm).1, hruns, adaptTo_runs, if_pos hpos]
    refine ⟨P', hP', hid' ▸ mem_pinnedSteps hP' (stepAt_mem hlen') (hruns' ▸ hpos) ?_⟩
    rw [hid', hruns']
  · have hzero' : total (stepAt S q).id = 0 := Except.ok.inj ((hmatched q).symm.trans hzero)
    have hcopy : (stepAt S q).isCopy = false := by
      cases hc : (stepAt S q).isCopy
      · rfl
      · have hsplit := hcopies _ (stepAt_mem hq) hc
        rw [← hgroup, Step.group, hsplit] at hsome
        cases hsome
    obtain ⟨-, hgroup_q, hcopy_q, hruns_q, -⟩ := fields_of_styleless (hat q hq)
    rw [hzero', adaptTo_zero] at hgroup_q hcopy_q hruns_q
    have hmem : q ∈ l.members := by
      rw [mem_members_iff hl hpm q]
      refine ⟨hlen ▸ hq, hcopy_q.trans hcopy, .inr ⟨?_, ?_⟩⟩
      · rw [hgroup_q, hgroup_p]
        exact hgroup
      · rw [hgroup_p]
        exact hsome
    rw [(hlk q hmem).1]
    exact hruns_q

/-- Every step under a key with a job that ran in another facility than its step is moved to
the facility of the latest such job, by start and then id, with the bonus resolved there for the
product of the first step under the key; when that facility has none, the step keeps its
bonus. -/
theorem matchPlan_moves_to_latest (hpolicy : config.matchPolicy = .onAnyDifference)
    (hids : (plan.steps.map Step.id).Nodup)
    (hapart : ∀ s ∈ plan.steps, ∀ t ∈ plan.steps, t.group ≠ some s.id)
    (hjobs : (world.jobs.map (·.id)).Nodup)
    (h : matchPlan config plan book scope claimed world res = .ok (o, claimed')) :
    ∀ (K : Ident) (j : Job) (f : Nat), j ∈ world.jobs → DriftsUnder plan.steps o.assignments K j →
      j.facility = some f →
      (∀ j' ∈ world.jobs, DriftsUnder plan.steps o.assignments K j' →
        j'.started < j.started ∨ (j'.started = j.started ∧ j'.id ≤ j.id)) →
      ∀ head, plan.steps.find? (fun s => s.correctionKey == K) = some head →
      ∀ q < plan.steps.length, (stepAt plan.steps q).correctionKey = K →
        (∃ b, res.bonusAt f head.product head.activity.isConversion scope.user = .ok b ∧
            (stepAt o.steps q).bonus = ⟨b.material, b.time, some f⟩) ∨
          ∃ e, res.bonusAt f head.product head.activity.isConversion scope.user =
              .error (.rejected (.bonusUnavailable e)) ∧
            (stepAt o.steps q).bonus = (stepAt plan.steps q).bonus := by
  intro K j f hj hdrift hf hlatest head hhead q hq hqK
  obtain ⟨st, mid, corrected, messages, hst, hc, hms, -, -, -, hsteps⟩ := matchPlan_stages h
  obtain ⟨done, hp⟩ := matchOrder_passed hpolicy hids hjobs hst
  rw [hms] at hdrift hlatest
  set S := plan.steps with hS
  -- the correction kept under `K` is that of `j`, the latest drift under it
  obtain ⟨c, hcK, hcov⟩ := (hp.latest K).2 j hj hdrift
  obtain ⟨j₀, hj₀, hdrift₀, hf₀, hstart₀, hid₀⟩ := (hp.latest K).1 c hcK
  have hsame : j₀ = j := by
    have hle := hlatest j₀ hj₀ hdrift₀
    unfold Correction.Covers at hcov
    exact List.inj_on_of_nodup_map hjobs hj₀ hj (by omega)
  have hcf : c.facility = f := by
    rw [hsame, hf] at hf₀
    exact (Option.some.inj hf₀).symm
  set cs := sortBy (fun a b => !(Ident.lt b.1 a.1)) st.corrections with hcs
  have hperm : cs.Perm st.corrections := sortBy_perm _ _
  have hkeyed : ∀ e ∈ cs, ∃ u ∈ S, u.correctionKey = e.1 := fun e he => by
    obtain ⟨-, -, ⟨-, -, -, u, hu, -, hukey, -⟩, -⟩ :=
      (hp.latest e.1).1 e.2 (correctionFor_of_mem hp.keys (hperm.mem_iff.1 he))
    exact ⟨u, hu, hukey⟩
  have hunder : ∀ e ∈ cs, ∀ q < st.steps.length,
      underKey e.1 (stepAt st.steps q) = true ↔ (stepAt S q).correctionKey = e.1 := fun e he q hq => by
    rw [hp.steps q (hp.length ▸ hq), underKey_adaptTo]
    exact underKey_iff hids hapart (hkeyed e he) (stepAt_mem (hp.length ▸ hq))
  obtain ⟨-, hfold⟩ := foldlM_applyCorrection_at cs _ _
    ((hperm.map _).nodup_iff.2 hp.keys) hunder rfl hc
  obtain ⟨head', hhead', hcorr⟩ :=
    (hfold q (hp.length ▸ hq)).2 (K, c) (hperm.mem_iff.2 (mem_of_correctionFor hcK)) hqK.symm
  obtain ⟨head'', hhead'', hsc⟩ := exists_find?_of_map_view hp.frame (underKey_sansCounts K) hhead'
  have hkeyK : ∃ u ∈ S, u.correctionKey = K := ⟨stepAt S q, stepAt_mem hq, hqK⟩
  have hfind : S.find? (underKey K) = S.find? (fun s => s.correctionKey == K) :=
    List.find?_congr fun u hu => by
      rw [Bool.eq_iff_iff, underKey_iff hids hapart hkeyK hu, beq_iff_eq]
  rw [hfind, hhead, Option.some.injEq] at hhead''
  subst hhead''
  have hcorr' := hcorr.of_head (congrArg Step.product hsc :) (congrArg Step.activity hsc :)
  have hout : (stepAt o.steps q).bonus = (stepAt mid q).bonus := by
    rcases hsteps with ⟨-, hmid⟩ | ⟨P, r, -, hr, hout⟩
    · rw [hmid]
    · rw [hout]
      exact (congrArg Step.bonus (sansCounts_stepAt_of_map (recalculate_keeps_pinned hr).1 q) :)
  have hbefore : (stepAt st.steps q).bonus = (stepAt S q).bonus := by
    rw [hp.steps q hq, bonus_adaptTo]
  rcases hcorr' with ⟨b, hres, hb⟩ | ⟨e, hres, hb⟩
  · refine .inl ⟨b, hcf ▸ hres, ?_⟩
    rw [hout, hb, hcf]
  · refine .inr ⟨e, hcf ▸ hres, ?_⟩
    rw [hout, hb, hbefore]

/-- Matching a plan whose steps have distinct identifiers, none of them naming a split group,
and whose copies are not split, against jobs with distinct identifiers, adapting to any
difference: every step whose jobs ran a positive number of runs ends with those runs; an adapted
step ends with the units its runs make and is pinned, and the members of its split group
without matched runs keep their runs; and every step under a key with a drifting job ends in the
facility of the latest such job with the bonus resolved there, or keeps its bonus when that
facility has none. -/
theorem matchPlan_follows_jobs (hpolicy : config.matchPolicy = .onAnyDifference)
    (hids : (plan.steps.map Step.id).Nodup)
    (hapart : ∀ s ∈ plan.steps, ∀ t ∈ plan.steps, t.group ≠ some s.id)
    (hcopies : ∀ s ∈ plan.steps, s.isCopy = true → s.split = none)
    (hjobs : (world.jobs.map (·.id)).Nodup)
    (h : matchPlan config plan book scope claimed world res = .ok (o, claimed')) :
    (∀ p < plan.steps.length, ∃ M, o.matchedRuns (stepAt plan.steps p).id = .ok M ∧
      (0 < M → (stepAt o.steps p).runs = M) ∧
      ((stepAt plan.steps p).id ∈ o.adapted ↔ 0 < M ∧ M ≠ (stepAt plan.steps p).runs) ∧
      ((stepAt plan.steps p).id ∈ o.adapted →
        (stepAt o.steps p).quantity = Count.satMul M (stepAt plan.steps p).out ∧
        (∃ P, pinnedSteps o.steps o.assignments = .ok P ∧ (stepAt plan.steps p).id ∈ P) ∧
        ∀ q < plan.steps.length, (stepAt plan.steps q).group = (stepAt plan.steps p).group →
          (stepAt plan.steps p).group.isSome → o.matchedRuns (stepAt plan.steps q).id = .ok 0 →
          (stepAt o.steps q).runs = (stepAt plan.steps q).runs)) ∧
    ∀ (K : Ident) (j : Job) (f : Nat), j ∈ world.jobs → DriftsUnder plan.steps o.assignments K j →
      j.facility = some f →
      (∀ j' ∈ world.jobs, DriftsUnder plan.steps o.assignments K j' →
        j'.started < j.started ∨ (j'.started = j.started ∧ j'.id ≤ j.id)) →
      ∀ head, plan.steps.find? (fun s => s.correctionKey == K) = some head →
      ∀ q < plan.steps.length, (stepAt plan.steps q).correctionKey = K →
        (∃ b, res.bonusAt f head.product head.activity.isConversion scope.user = .ok b ∧
            (stepAt o.steps q).bonus = ⟨b.material, b.time, some f⟩) ∨
          ∃ e, res.bonusAt f head.product head.activity.isConversion scope.user =
              .error (.rejected (.bonusUnavailable e)) ∧
            (stepAt o.steps q).bonus = (stepAt plan.steps q).bonus :=
  ⟨matchPlan_keeps_matched_runs hpolicy hids hcopies hjobs h,
    matchPlan_moves_to_latest hpolicy hids hapart hjobs h⟩

end Plan

section Samples

/-- A build of product `1`, one unit a run. -/
def buildOne : Recipe := ⟨1, .build, [], [⟨1, 1⟩], 10⟩

/-- A build of product `2`, one unit a run. -/
def buildTwo : Recipe := ⟨2, .build, [], [⟨2, 1⟩], 10⟩

/-- A build of product `1` for five runs, placed in no facility. -/
def fiveRunBuild : Step :=
  { id := .given 1, recipe := 1, product := 1, runs := 5, quantity := 5, target := 5 }

/-- A plan of that build alone. -/
def adaptSample : Plan := { id := .given 1, steps := [fiveRunBuild] }

/-- One job of three runs of that build, run in facility `5`. -/
def adaptSampleWorld : World :=
  { recipes := [buildOne]
    jobs := [{ id := 10, recipe := 1, runs := 3, started := 5, facility := some 5 }] }

/-- User `1` has facility `5`, with no rules. -/
def adaptSampleResolver : Resolver := { registries := [(1, { facilities := [⟨5, "", []⟩] })] }

theorem matchPlan_follows_jobs_sample :
    ∃ o claimed', matchPlan {} adaptSample { recipes := [buildOne] } {} [] adaptSampleWorld
        adaptSampleResolver = .ok (o, claimed') ∧
      ∃ M, o.matchedRuns (.given 1) = .ok M ∧ (0 < M → (stepAt o.steps 0).runs = M) ∧
        (.given 1 ∈ o.adapted ↔ 0 < M ∧ M ≠ 5) := by
  obtain ⟨o, claimed', h⟩ : ∃ o claimed', matchPlan {} adaptSample { recipes := [buildOne] } {} []
      adaptSampleWorld adaptSampleResolver = .ok (o, claimed') := ⟨_, _, rfl⟩
  obtain ⟨M, hM, hruns, hadapted, -⟩ :=
    (matchPlan_follows_jobs rfl (by decide) (by decide) (by decide) (by decide) h).1 0 (by decide)
  exact ⟨o, claimed', h, M, hM, hruns, hadapted⟩

/-- The build of five runs, making more units a run than half the largest count. -/
def hugeOutBuild : Step := { fiveRunBuild with out := 4611686018427387904 }

/-- A step named like the split group of another, each in facility `1`. -/
def keyClashSample : Plan where
  id := .given 1
  steps := [
    { id := .given 9, recipe := 1, product := 1, runs := 2, quantity := 2, target := 2,
      facility := some 1 },
    { id := .given 2, recipe := 2, product := 2, runs := 3, quantity := 3, target := 3,
      facility := some 1, split := some ⟨.given 9, 0, 3⟩ }]

/-- Jobs of both steps of `keyClashSample`, the later one run in another facility. -/
def keyClashWorld : World where
  recipes := [buildOne, buildTwo]
  jobs := [{ id := 10, recipe := 1, runs := 2, started := 10, facility := some 5 },
    { id := 11, recipe := 2, runs := 3, started := 20, facility := some 6 }]

/-- Two builds with one identifier. -/
def twinSample : Plan where
  id := .given 1
  steps := [{ id := .given 1, recipe := 1, product := 1, runs := 2, quantity := 2, target := 2 },
    { id := .given 1, recipe := 1, product := 1, depth := 1, runs := 2, quantity := 2, target := 2 }]

/-- A split group of a build and a copy of its recipe. -/
def groupedCopySample : Plan where
  id := .given 1
  steps := [
    { id := .given 1, recipe := 1, product := 1, runs := 5, quantity := 5, target := 5,
      split := some ⟨.given 7, 0, 6⟩ },
    { id := .given 2, recipe := 1, activity := .duplicate, product := 1, runs := 1, quantity := 1,
      split := some ⟨.given 7, 1, 6⟩ }]

/-- Matching departs from "every matched step ends with its jobs' runs, and with the facility of
its latest drifting job" in five ways: a job of no runs leaves its step as it was; the units of
adapted runs are held at the largest count; a step named like a split group shares its
corrections with the group; two steps of one identifier are matched as one; and a copy in the
split group of an adapted step is recalculated. -/
theorem matchPlan_departs_from_jobs :
    (∃ o c, matchPlan {} adaptSample { recipes := [buildOne] } {} []
        { recipes := [buildOne], jobs := [{ id := 10, recipe := 1, started := 5 }] } {} =
          .ok (o, c) ∧
      o.assignments.length = 1 ∧ o.matchedRuns (.given 1) = .ok 0 ∧ (stepAt o.steps 0).runs = 5) ∧
    (∃ o c, matchPlan {} { id := .given 1, steps := [hugeOutBuild] }
        { recipes := [⟨1, .build, [], [⟨1, 4611686018427387904⟩], 10⟩] } {} []
        { jobs := [{ id := 10, recipe := 1, runs := 8, started := 5 }] } {} = .ok (o, c) ∧
      (stepAt o.steps 0).runs = 8 ∧ (stepAt o.steps 0).quantity = Count.top ∧
      Count.top < 8 * 4611686018427387904) ∧
    (∃ o c, matchPlan {} keyClashSample { recipes := [buildOne, buildTwo] } {} [] keyClashWorld
        { registries := [(1, { facilities := [⟨5, "", []⟩, ⟨6, "", []⟩] })] } = .ok (o, c) ∧
      o.assignments.map (fun m => (m.step, m.job)) = [(.given 9, 10), (.given 2, 11)] ∧
      (stepAt o.steps 0).facility = some 6) ∧
    (∃ o c, matchPlan {} twinSample { recipes := [buildOne] } {} []
        { recipes := [buildOne], jobs := [{ id := 10, recipe := 1, runs := 2, started := 10 },
          { id := 11, recipe := 1, runs := 2, started := 20 }] } {} = .ok (o, c) ∧
      o.matchedRuns (.given 1) = .ok 4 ∧ (stepAt o.steps 0).runs = 2 ∧
      (stepAt o.steps 1).runs = 2) ∧
    (∃ o c, matchPlan {} groupedCopySample { recipes := [buildOne] } {} []
        { recipes := [buildOne], jobs := [{ id := 10, recipe := 1, runs := 3, started := 5 }] } {} =
          .ok (o, c) ∧
      .given 1 ∈ o.adapted ∧ (stepAt o.steps 1).runs = 3) :=
  ⟨⟨_, _, rfl, rfl, rfl, rfl⟩, ⟨_, _, rfl, rfl, rfl, by decide⟩, ⟨_, _, rfl, rfl, rfl⟩,
    ⟨_, _, rfl, rfl, rfl, rfl⟩, ⟨_, _, rfl, by decide, rfl⟩⟩

end Samples

end Fabrication
