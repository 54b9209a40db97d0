import Fabrication.Proofs.Step.Split
import Fabrication.Proofs.Step.Frame
import Fabrication.Step.Edit

/-!
# What editing a step keeps

An edit sets a step's efficiencies, facility bonus, purchase or matching, and does the same to
every other member of the step's split group; a facility correction moves a step or a group to
another facility. Neither changes anything of a step but what `styleless` sets aside, and each
changes the members of a group alike. Every map of the steps that does so keeps steps grouped
and well formed (`Grouped.restyled`, `WellFormed.restyled`); so editing a step of a well-formed
plan leaves it well formed (`applyEdit_wellFormed`).
-/

namespace Fabrication

namespace Step

/-- A step without what an edit or a facility move changes (efficiencies, facility and bonus,
purchase and matching) and without what well-formedness does not read. -/
def styleless (s : Step) : Step :=
  { wfView s with me := 0, te := 0, facility := none, matBonus := Decimal.zero,
                  timeBonus := Decimal.zero }

/-- Steps that agree on a view agree on everything the view determines. -/
theorem view_congr {α : Type} {v : Step → Step} {s t : Step} (h : v s = v t) (f : Step → α)
    (hf : ∀ u, f (v u) = f u) : f s = f t := by
  rw [← hf s, h, hf t]

section Restyle

variable {steps : List Step} {f : Step → Step}

theorem restyled_eq (hf : ∀ s ∈ steps, styleless (f s) = styleless s) {α : Type} (g : Step → α)
    (hg : ∀ u, g (styleless u) = g u) {s : Step} (hs : s ∈ steps) : g (f s) = g s :=
  view_congr (hf s hs) g hg

theorem filter_map_restyled (hf : ∀ s ∈ steps, styleless (f s) = styleless s) {p : Step → Bool}
    (hp : ∀ u, p (styleless u) = p u) : (steps.map f).filter p = (steps.filter p).map f := by
  rw [List.filter_map]
  congr 1
  exact List.filter_congr fun s hs => restyled_eq hf p hp hs

theorem map_styleless_restyled (hf : ∀ s ∈ steps, styleless (f s) = styleless s) :
    (steps.map f).map styleless = steps.map styleless := by
  rw [List.map_map]
  exact List.map_congr_left fun s hs => hf s hs

/-- A map of grouped steps that changes only what edits change, and changes the members of a
group alike, keeps them grouped. -/
theorem Grouped.restyled (hg : Grouped steps) (hf : ∀ s ∈ steps, styleless (f s) = styleless s)
    (hshared : ∀ s ∈ steps, ∀ t ∈ steps, s.group.isSome → s.group = t.group →
      (f s).groupView = (f t).groupView) : Grouped (steps.map f) := by
  have hmembers : ∀ g, membersOf (steps.map f) g = (membersOf steps g).map f := fun g =>
    filter_map_restyled hf fun _ => rfl
  refine ⟨fun s' hs' hcopy => ?_, fun s' hs' t' ht' hsome hgrp => ?_, fun g => ?_,
    fun s' hs' t' ht' hk => ?_, ?_⟩
  · obtain ⟨s, hs, rfl⟩ := List.mem_map.1 hs'
    rw [restyled_eq hf isCopy (fun _ => rfl) hs] at hcopy
    rw [restyled_eq hf out (fun _ => rfl) hs, restyled_eq hf Step.runs (fun _ => rfl) hs,
      restyled_eq hf quantity (fun _ => rfl) hs]
    exact hg.runs s hs hcopy
  · obtain ⟨s, hs, rfl⟩ := List.mem_map.1 hs'
    obtain ⟨t, ht, rfl⟩ := List.mem_map.1 ht'
    rw [restyled_eq hf group (fun _ => rfl) hs, restyled_eq hf group (fun _ => rfl) ht] at hgrp
    rw [restyled_eq hf group (fun _ => rfl) hs] at hsome
    exact hshared s hs t ht hsome hgrp
  · have hidx : (membersOf steps g).map (splitIndex ∘ f) = (membersOf steps g).map splitIndex :=
      List.map_congr_left fun s hs =>
        restyled_eq hf splitIndex (fun _ => rfl) (List.mem_filter.1 hs).1
    rw [hmembers, List.map_map, List.length_map, hidx]
    exact hg.indices g
  · obtain ⟨s, hs, rfl⟩ := List.mem_map.1 hs'
    obtain ⟨t, ht, rfl⟩ := List.mem_map.1 ht'
    rw [restyled_eq hf key (fun _ => rfl) hs, restyled_eq hf key (fun _ => rfl) ht] at hk
    rw [restyled_eq hf group (fun _ => rfl) hs, restyled_eq hf group (fun _ => rfl) ht,
      restyled_eq hf Step.id (fun _ => rfl) hs, restyled_eq hf Step.id (fun _ => rfl) ht]
    exact hg.keys s hs t ht hk
  · have hids : (steps.map f).map Step.id = steps.map Step.id := by
      rw [List.map_map]
      exact List.map_congr_left fun s hs => restyled_eq hf Step.id (fun _ => rfl) hs
    rw [hids]
    exact hg.ids

/-- A map of well-formed steps that changes only what edits change, and changes the members of
a group alike, keeps them well formed. -/
theorem WellFormed.restyled (hw : WellFormed steps)
    (hf : ∀ s ∈ steps, styleless (f s) = styleless s)
    (hshared : ∀ s ∈ steps, ∀ t ∈ steps, s.group.isSome → s.group = t.group →
      (f s).groupView = (f t).groupView) : WellFormed (steps.map f) := by
  have hruns : ∀ l : List Step, (∀ s ∈ l, s ∈ steps) → (l.map f).map Step.runs = l.map Step.runs :=
    fun l hl => by
      rw [List.map_map]
      exact List.map_congr_left fun s hs => restyled_eq hf Step.runs (fun _ => rfl) (hl s hs)
  refine ⟨hw.toGrouped.restyled hf hshared, fun s' hs' info hinfo => ?_,
    fun c' hc' hcopy hb => ?_⟩
  · obtain ⟨s, hs, rfl⟩ := List.mem_map.1 hs'
    rw [restyled_eq hf split (fun _ => rfl) hs] at hinfo
    rw [membersOf, filter_map_restyled hf fun _ => rfl,
      hruns _ fun t ht => (List.mem_filter.1 ht).1]
    exact hw.totals s hs info hinfo
  · obtain ⟨c, hc, rfl⟩ := List.mem_map.1 hc'
    obtain ⟨b', hb', hbk⟩ := hb
    obtain ⟨b, hb, rfl⟩ := List.mem_map.1 hb'
    rw [restyled_eq hf isCopy (fun _ => rfl) hc] at hcopy
    rw [restyled_eq hf key (fun _ => rfl) hb, restyled_eq hf recipe (fun _ => rfl) hc] at hbk
    have hkey : runsOfKey (steps.map f) ⟨c.recipe, .build⟩ = runsOfKey steps ⟨c.recipe, .build⟩ := by
      unfold runsOfKey
      rw [filter_map_restyled hf fun _ => rfl, hruns _ fun t ht => (List.mem_filter.1 ht).1]
    rw [restyled_eq hf recipe (fun _ => rfl) hc, hkey, restyled_eq hf Step.runs (fun _ => rfl) hc,
      restyled_eq hf quantity (fun _ => rfl) hc]
    exact hw.copies c hc hcopy ⟨b, hb, hbk⟩

end Restyle

theorem styleless_applyTo (e : StepEdit) (b : Option (Option Bonus)) (s : Step) :
    styleless (e.applyTo b s) = styleless s := by
  unfold StepEdit.applyTo
  split <;> rfl

/-- An edit does the same to steps that agree on what split groups share. -/
theorem applyTo_groupView (e : StepEdit) (b : Option (Option Bonus)) {s t : Step}
    (h : s.groupView = t.groupView) : (e.applyTo b s).groupView = (e.applyTo b t).groupView := by
  simp only [groupView, bonus, Prod.mk.injEq, Bonus.mk.injEq] at h
  obtain ⟨h1, h2, h3, h4, h5, h6, h7, h8, h9, h10⟩ := h
  unfold StepEdit.applyTo
  split <;> simp [groupView, bonus, applyBonus, h1, h2, h3, h4, h5, h6, h7, h8, h9, h10]

/-- A successful edit edits the step with the identifier and every other member of its group,
with one resolved bonus. -/
theorem applyEdit_eq {steps steps' : List Step} {id : Ident} {edit : StepEdit} {res : Resolver}
    {user : Nat} (h : applyEdit steps id edit res user = .ok steps') :
    ∃ target ∈ steps, target.id = id ∧ ∃ b, steps' = steps.map fun s =>
      if s.id == id || (target.group.isSome && s.group == target.group) then edit.applyTo b s
      else s := by
  unfold applyEdit at h
  obtain ⟨_, -, h⟩ := ok_of_bind h
  split at h
  · rename_i target htarget
    have hmem : target ∈ steps := List.mem_of_find?_eq_some htarget
    have hid : target.id = id := by simpa using List.find?_some htarget
    dsimp only at h
    split at h
    on_goal 1 => obtain ⟨b, -, h⟩ := ok_of_bind h
    all_goals
      cases h
      exact ⟨target, hmem, hid, _, rfl⟩
  · cases h

/-- Editing a step of well-formed steps keeps them well formed, and changes nothing but what
edits change. -/
theorem applyEdit_wellFormed {steps steps' : List Step} {id : Ident} {edit : StepEdit}
    {res : Resolver} {user : Nat} (hw : WellFormed steps)
    (h : applyEdit steps id edit res user = .ok steps') :
    WellFormed steps' ∧ steps'.map styleless = steps.map styleless := by
  obtain ⟨target, htarget, hid, b, rfl⟩ := applyEdit_eq h
  have hf : ∀ s ∈ steps, styleless ((fun s =>
      if s.id == id || (target.group.isSome && s.group == target.group) then edit.applyTo b s
      else s) s) = styleless s := fun s _ => by
    dsimp only
    split
    · exact styleless_applyTo edit b s
    · rfl
  refine ⟨hw.restyled hf fun s hs t ht hsome hgrp => ?_, map_styleless_restyled hf⟩
  -- the members of a group are edited together: the group of the edited step, or none of them
  have hcond : (s.id == id || (target.group.isSome && s.group == target.group)) =
      (t.id == id || (target.group.isSome && t.group == target.group)) := by
    by_cases htg : s.group = target.group
    · have hts : target.group.isSome = true := htg ▸ hsome
      simp [hts, htg, ← hgrp]
    · have hnot : ∀ u ∈ steps, u.group = s.group → u.id ≠ id := fun u hu hug hu' =>
        htg (hug ▸ congrArg group (List.inj_on_of_nodup_map hw.ids hu htarget (hu'.trans hid.symm)))
      rw [beq_false_of_ne (hnot s hs rfl), beq_false_of_ne (hnot t ht hgrp.symm),
        beq_false_of_ne htg, beq_false_of_ne (hgrp ▸ htg : t.group ≠ target.group)]
  rw [hcond]
  split
  · exact applyTo_groupView edit b (hw.shared s hs t ht hsome hgrp)
  · exact hw.shared s hs t ht hsome hgrp

end Step

end Fabrication
