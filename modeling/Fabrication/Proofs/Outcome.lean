import Fabrication.Step
import Mathlib.Data.List.Forall2

/-!
# Reading results of computations that may fail

Inversion lemmas for the monads of the planner: `Except` (and so `Outcome`), `Planning`,
which also hands out fresh identifiers, and `EStateM`, whose state outlives a failure. A
successful bind splits into its two successful parts; a successful fold or `mapM` keeps an
invariant of each of its steps, and a failed one failed at one of them.
-/

namespace Fabrication

/-- Each element on the left of a `Forall₂` has a partner on the right. -/
theorem exists_of_forall₂ {α β : Type} {R : α → β → Prop} {l : List α} {u : List β}
    (h : List.Forall₂ R l u) {x : α} (hx : x ∈ l) : ∃ y ∈ u, R x y := by
  induction h with
  | nil => cases hx
  | cons hab _ ih =>
    rcases List.mem_cons.1 hx with rfl | hx
    · exact ⟨_, List.mem_cons_self, hab⟩
    · obtain ⟨y, hy, hr⟩ := ih hx
      exact ⟨y, List.mem_cons_of_mem _ hy, hr⟩

/-- Each element on the right of a `Forall₂` has a partner on the left. -/
theorem exists_of_forall₂_right {α β : Type} {R : α → β → Prop} {l : List α} {u : List β}
    (h : List.Forall₂ R l u) {y : β} (hy : y ∈ u) : ∃ x ∈ l, R x y := by
  induction h with
  | nil => cases hy
  | cons hab _ ih =>
    rcases List.mem_cons.1 hy with rfl | hy
    · exact ⟨_, List.mem_cons_self, hab⟩
    · obtain ⟨x, hx, hr⟩ := ih hy
      exact ⟨x, List.mem_cons_of_mem _ hx, hr⟩

/-- An invariant kept by each step of a fold holds of its result. -/
theorem foldl_invariant {α β : Type} (P : β → Prop) {f : β → α → β} {l : List α} {b : β}
    (h0 : P b) (hs : ∀ b a, a ∈ l → P b → P (f b a)) : P (l.foldl f b) := by
  induction l generalizing b with
  | nil => exact h0
  | cons a l ih => exact ih (hs b a (by simp) h0) fun b a' ha' => hs b a' (by simp [ha'])

/-- An invariant indexed by the number of entries walked, kept by each step of a fold over a
list and the positions of its entries, holds of the result. -/
theorem foldl_zipIdx_invariant {α β : Type} (P : Nat → β → Prop) {f : β → α × Nat → β}
    {l : List α} {b : β} (h0 : P 0 b)
    (hs : ∀ k (hk : k < l.length) b, P k b → P (k + 1) (f b (l[k], k))) :
    P l.length (l.zipIdx.foldl f b) := by
  -- walk the entries after a prefix `l₁`, whose positions start at its length
  suffices h : ∀ (l₂ l₁ : List α) (b : β), l = l₁ ++ l₂ → P l₁.length b →
      P l.length ((l₂.zipIdx l₁.length).foldl f b) by
    simpa using h l [] b rfl h0
  intro l₂
  induction l₂ with
  | nil =>
    intro l₁ b hl hb
    subst hl
    simpa using hb
  | cons x xs ih =>
    intro l₁ b hl hb
    rw [List.zipIdx_cons, List.foldl_cons]
    have hk : l₁.length < l.length := by simp [hl]
    have hx : l[l₁.length] = x := by simp [hl]
    have hstep := hs l₁.length hk b hb
    rw [hx] at hstep
    simpa using ih (l₁ ++ [x]) _ (by simp [hl]) (by simpa using hstep)

/-- Lists related by equal keys have equal lists of keys. -/
theorem map_eq_of_forall₂ {α β γ : Type} {f : α → γ} {g : β → γ} {l : List α} {u : List β}
    (h : List.Forall₂ (fun a b => f a = g b) l u) : l.map f = u.map g := by
  induction h with
  | nil => rfl
  | cons hab _ ih => rw [List.map_cons, List.map_cons, hab, ih]

/-- Mapping two functions that agree on a list's entries gives the same computation. -/
theorem mapM_congr {m : Type → Type} [Monad m] [LawfulMonad m] {α β : Type} {f g : α → m β}
    {l : List α} (h : ∀ x ∈ l, f x = g x) : l.mapM f = l.mapM g := by
  induction l with
  | nil => rfl
  | cons x l ih =>
    rw [List.mapM_cons, List.mapM_cons, h x (by simp), ih fun y hy => h y (by simp [hy])]

section Except

variable {ε α β : Type}

theorem ok_of_bind {x : Except ε α} {f : α → Except ε β} {b : β}
    (h : (x >>= f) = .ok b) : ∃ a, x = .ok a ∧ f a = .ok b := by
  cases x with
  | error e => cases h
  | ok a => exact ⟨a, rfl, h⟩

theorem ok_of_map {f : α → β} {x : Except ε α} {b : β} (h : f <$> x = .ok b) :
    ∃ a, x = .ok a ∧ f a = b := by
  cases x with
  | error e => cases h
  | ok a => cases h; exact ⟨a, rfl, rfl⟩

/-- A computation whose result passes a computed check succeeds with such a result. -/
theorem exists_ok_of_check {x : Except ε α} {p : α → Bool}
    (h : (match x with | .ok a => p a | .error _ => false) = true) : ∃ a, x = .ok a ∧ p a = true := by
  cases x with
  | error e => cases h
  | ok a => exact ⟨a, rfl, h⟩

/-- An invariant kept by each step of a fold that may fail holds of its result. -/
theorem foldlM_invariant (P : β → Prop) {f : β → α → Except ε β} {l : List α} {b r : β}
    (h : l.foldlM f b = .ok r) (h0 : P b)
    (hs : ∀ b a c, a ∈ l → P b → f b a = .ok c → P c) : P r := by
  induction l generalizing b with
  | nil => cases h; exact h0
  | cons a l ih =>
    rw [List.foldlM_cons] at h
    obtain ⟨c, hc, h⟩ := ok_of_bind h
    exact ih h (hs b a c (by simp) h0 hc) fun b a' d ha' => hs b a' d (by simp [ha'])

/-- The same for a fold that may fail, when it succeeds. -/
theorem foldlM_zipIdx_invariant (P : Nat → β → Prop) {f : β → α × Nat → Except ε β}
    {l : List α} {b r : β} (h : l.zipIdx.foldlM f b = .ok r) (h0 : P 0 b)
    (hs : ∀ k (hk : k < l.length) b c, P k b → f b (l[k], k) = .ok c → P (k + 1) c) :
    P l.length r := by
  suffices hwalk : ∀ (l₂ l₁ : List α) (b : β), l = l₁ ++ l₂ → P l₁.length b →
      (l₂.zipIdx l₁.length).foldlM f b = .ok r → P l.length r by
    exact hwalk l [] b rfl h0 (by simpa using h)
  intro l₂
  induction l₂ with
  | nil =>
    intro l₁ b hl hb hfold
    subst hl
    cases hfold
    simpa using hb
  | cons x xs ih =>
    intro l₁ b hl hb hfold
    rw [List.zipIdx_cons, List.foldlM_cons] at hfold
    obtain ⟨c, hc, hfold⟩ := ok_of_bind hfold
    have hk : l₁.length < l.length := by simp [hl]
    have hx : l[l₁.length] = x := by simp [hl]
    have hstep := hs l₁.length hk b c hb (by rw [hx]; exact hc)
    exact ih (l₁ ++ [x]) c (by simp [hl]) (by simpa using hstep)
      (by simpa [Nat.add_comm] using hfold)

/-- A fold whose every step appends one output, related to the input it read, to the list it
carries (and keeps an invariant of what it carries) ends with the outputs of all inputs. -/
theorem foldlM_append {γ δ : Type} (I : List γ × δ → Prop) (R : α → γ → Prop)
    {f : List γ × δ → α → Except ε (List γ × δ)} {l : List α} {acc r : List γ × δ}
    (h : l.foldlM f acc = .ok r) (h0 : I acc)
    (hs : ∀ acc a acc', a ∈ l → I acc → f acc a = .ok acc' →
      I acc' ∧ ∃ y, acc'.1 = acc.1 ++ [y] ∧ R a y) :
    I r ∧ ∃ ys, r.1 = acc.1 ++ ys ∧ List.Forall₂ R l ys := by
  induction l generalizing acc with
  | nil =>
    cases h
    exact ⟨h0, [], by simp, .nil⟩
  | cons a l ih =>
    rw [List.foldlM_cons] at h
    obtain ⟨c, hc, h⟩ := ok_of_bind h
    obtain ⟨hIc, y, hy, hR⟩ := hs acc a c (by simp) h0 hc
    obtain ⟨hI, ys, hys, hrel⟩ := ih h hIc fun acc a' d ha' => hs acc a' d (by simp [ha'])
    exact ⟨hI, y :: ys, by simp [hys, hy], .cons hR hrel⟩

/-- A successful `mapM` relates each input to its output. -/
theorem mapM_forall₂ (R : α → β → Prop) {f : α → Except ε β} {l : List α} {ys : List β}
    (h : l.mapM f = .ok ys) (hR : ∀ x y, x ∈ l → f x = .ok y → R x y) : List.Forall₂ R l ys := by
  induction l generalizing ys with
  | nil => cases h; exact .nil
  | cons x l ih =>
    rw [List.mapM_cons] at h
    obtain ⟨y, hy, h⟩ := ok_of_bind h
    obtain ⟨zs, hzs, h⟩ := ok_of_bind h
    cases h
    exact .cons (hR x y (by simp) hy) (ih hzs fun x' y' hx' => hR x' y' (by simp [hx']))

/-- A computation that may fail fails exactly when it has no result. -/
theorem exists_error_iff_not_ok {x : Except ε α} : (∃ e, x = .error e) ↔ ¬∃ a, x = .ok a := by
  cases x <;> simp

/-- A `mapM` succeeds with a list exactly when each call succeeds with its element. -/
theorem mapM_ok_iff_forall₂ {f : α → Except ε β} {l : List α} {ys : List β} :
    l.mapM f = .ok ys ↔ List.Forall₂ (fun x y => f x = .ok y) l ys := by
  refine ⟨fun h => mapM_forall₂ _ h fun _ _ _ hy => hy, fun h => ?_⟩
  induction h with
  | nil => rfl
  | @cons x y l ys hy _ ih =>
    rw [List.mapM_cons, hy]
    show (l.mapM f >>= fun ys => pure (y :: ys)) = _
    rw [ih]
    rfl

/-- A `mapM` succeeds exactly when every call does. -/
theorem exists_mapM_ok_iff {f : α → Except ε β} {l : List α} :
    (∃ ys, l.mapM f = .ok ys) ↔ ∀ x ∈ l, ∃ y, f x = .ok y := by
  simp only [mapM_ok_iff_forall₂]
  induction l with
  | nil => simp
  | cons x l ih => simp [List.forall₂_cons_left_iff, ← ih]

/-- A `mapM` whose every call succeeds, followed by a step that always succeeds, succeeds. -/
theorem exists_bind_mapM_ok {γ : Type} {f : α → Except ε β} {g : List β → Except ε γ} {l : List α}
    (h : ∀ x ∈ l, ∃ y, f x = .ok y) (hg : ∀ ys, ∃ z, g ys = .ok z) :
    ∃ z, (l.mapM f >>= g) = .ok z := by
  suffices hmap : ∃ ys, l.mapM f = .ok ys by
    obtain ⟨ys, hys⟩ := hmap
    rw [hys]
    exact hg ys
  induction l with
  | nil => exact ⟨[], rfl⟩
  | cons x l ih =>
    obtain ⟨y, hy⟩ := h x (by simp)
    obtain ⟨ys, hys⟩ := ih fun x' hx' => h x' (by simp [hx'])
    refine ⟨y :: ys, ?_⟩
    rw [List.mapM_cons, hy]
    show (l.mapM f >>= fun ys => pure (y :: ys)) = _
    rw [hys]
    rfl

/-- A step of a monadic fold that establishes a property of its own element, which later
steps keep, leaves that property for every element; `P` is kept along the way and may be
used by both. -/
theorem foldlM_establish (P : β → Prop) (Q : α → β → Prop) {f : β → α → Except ε β}
    {l : List α} {b r : β} (h : l.foldlM f b = .ok r) (h0 : P b)
    (hP : ∀ b a c, a ∈ l → P b → f b a = .ok c → P c)
    (hest : ∀ b a c, a ∈ l → P b → f b a = .ok c → Q a c)
    (hkeep : ∀ b a a' c, a' ∈ l → P b → Q a b → f b a' = .ok c → Q a c) :
    ∀ a ∈ l, Q a r := by
  induction l generalizing b with
  | nil => intro a ha; cases ha
  | cons x l ih =>
    rw [List.foldlM_cons] at h
    obtain ⟨c, hc, hrest⟩ := ok_of_bind h
    have hPc := hP b x c List.mem_cons_self h0 hc
    intro a ha
    rcases List.mem_cons.1 ha with rfl | ha
    · refine (foldlM_invariant (fun d => P d ∧ Q a d) hrest
        ⟨hPc, hest b a c List.mem_cons_self h0 hc⟩ ?_).2
      rintro d a' e ha' ⟨hPd, hQd⟩ he
      exact ⟨hP d a' e (List.mem_cons_of_mem _ ha') hPd he,
        hkeep d a a' e (List.mem_cons_of_mem _ ha') hPd hQd he⟩
    · exact ih hrest hPc (fun b a c ha => hP b a c (List.mem_cons_of_mem _ ha))
        (fun b a c ha => hest b a c (List.mem_cons_of_mem _ ha))
        (fun b a a' c ha' => hkeep b a a' c (List.mem_cons_of_mem _ ha')) a ha

/-- A bind that fails failed in its first part, or in its second after the first succeeded. -/
theorem error_of_bind {x : Except ε α} {f : α → Except ε β} {e : ε}
    (h : (x >>= f) = .error e) : x = .error e ∨ ∃ a, x = .ok a ∧ f a = .error e := by
  cases x with
  | error e' =>
    have hfail : (Except.error e' >>= f) = .error e' := rfl
    rw [hfail] at h
    cases h
    exact .inl rfl
  | ok a => exact .inr ⟨a, rfl, h⟩

/-- A monadic fold that fails fails at a step for one of its elements. -/
theorem error_of_foldlM {f : β → α → Except ε β} {l : List α} {b : β} {e : ε}
    (h : l.foldlM f b = .error e) : ∃ a ∈ l, ∃ c, f c a = .error e := by
  induction l generalizing b with
  | nil => cases h
  | cons x l ih =>
    rw [List.foldlM_cons] at h
    rcases error_of_bind h with hx | ⟨c, -, hrest⟩
    · exact ⟨x, List.mem_cons_self, b, hx⟩
    · obtain ⟨a, ha, d, hd⟩ := ih hrest
      exact ⟨a, List.mem_cons_of_mem _ ha, d, hd⟩

end Except

theorem ok_of_ofFault {α : Type} {x : Except Fault α} {a : α} (h : Outcome.ofFault x = .ok a) :
    x = .ok a := by
  cases x with
  | error e => cases h
  | ok b => cases h; rfl

theorem Count.eq_of_check_ok {n m : Nat} {f : Fault} (h : Count.check n f = .ok m) : m = n := by
  unfold Count.check at h
  split at h
  · cases h; rfl
  · cases h

theorem Count.lt_bound_of_check_ok {n m : Nat} {f : Fault} (h : Count.check n f = .ok m) :
    m < Count.bound := by
  unfold Count.check at h
  split at h
  · cases h; assumption
  · cases h

theorem Count.eq_of_add?_ok {a b c : Nat} (h : Count.add? a b = .ok c) : c = a + b :=
  Count.eq_of_check_ok h

theorem Count.eq_of_mul?_ok {a b c : Nat} (h : Count.mul? a b = .ok c) : c = a * b :=
  Count.eq_of_check_ok h

theorem ok_of_ofPlan {α : Type} {x : Except PlanError α} {a : α} (h : Outcome.ofPlan x = .ok a) :
    x = .ok a := by
  cases x with
  | error e => cases h
  | ok b => cases h; rfl

namespace EStateM

variable {ε σ α β : Type}

/-- A bind that succeeded ran both of its parts successfully. -/
theorem ok_of_bind {x : EStateM ε σ α} {f : α → EStateM ε σ β} {s u : σ} {b : β}
    (h : (x >>= f).run s = .ok b u) : ∃ a t, x.run s = .ok a t ∧ (f a).run t = .ok b u := by
  rw [EStateM.run_bind] at h
  split at h
  · exact ⟨_, _, ‹_›, h⟩
  · cases h

/-- A bind that failed failed in its first part, or in its second after the first
succeeded. -/
theorem error_of_bind {x : EStateM ε σ α} {f : α → EStateM ε σ β} {s u : σ} {e : ε}
    (h : (x >>= f).run s = .error e u) :
    x.run s = .error e u ∨ ∃ a t, x.run s = .ok a t ∧ (f a).run t = .error e u := by
  rw [EStateM.run_bind] at h
  split at h
  · exact .inr ⟨_, _, ‹_›, h⟩
  · cases h
    exact .inl ‹_›

/-- A run whose result passes a computed check succeeded with such a result. -/
theorem exists_ok_of_check {r : EStateM.Result ε σ α} {p : α → σ → Bool}
    (h : (match r with | .ok a t => p a t | .error _ _ => false) = true) :
    ∃ a t, r = .ok a t ∧ p a t = true := by
  cases r with
  | ok a t => exact ⟨a, t, rfl, h⟩
  | error e t => cases h

end EStateM

namespace Planning

variable {α β : Type}

theorem run_mint (σ : IdSupply) : mint.run σ = .ok (.fresh σ.next, ⟨σ.next + 1⟩) := rfl

theorem run_bind_ok {x : Planning α} {f : α → Planning β} {σ τ : IdSupply} {b : β}
    (h : (x >>= f).run σ = .ok (b, τ)) :
    ∃ a ρ, x.run σ = .ok (a, ρ) ∧ (f a).run ρ = .ok (b, τ) := by
  rw [StateT.run_bind] at h
  obtain ⟨⟨a, ρ⟩, hx, hf⟩ := ok_of_bind h
  exact ⟨a, ρ, hx, hf⟩

theorem run_ofOutcome_ok {x : Outcome α} {a : α} {σ τ : IdSupply}
    (h : (ofOutcome x).run σ = .ok (a, τ)) : x = .ok a ∧ τ = σ := by
  cases x with
  | error e => cases h
  | ok b => cases h; exact ⟨rfl, rfl⟩

theorem run_ofFault_ok {x : Except Fault α} {a : α} {σ τ : IdSupply}
    (h : (ofFault x).run σ = .ok (a, τ)) : x = .ok a ∧ τ = σ := by
  obtain ⟨hx, rfl⟩ := run_ofOutcome_ok h
  exact ⟨ok_of_ofFault hx, rfl⟩

/-- An invariant of the result and the supply's mark, kept by each step of a fold, holds of the
fold's result at the mark it leaves. -/
theorem foldlM_marked (P : β → Nat → Prop) {f : β → α → Planning β} {l : List α} {b r : β}
    {σ τ : IdSupply} (h : (l.foldlM f b).run σ = .ok (r, τ)) (h0 : P b σ.next)
    (hs : ∀ b a c ρ ρ', a ∈ l → P b ρ.next → (f b a).run ρ = .ok (c, ρ') → P c ρ'.next) :
    P r τ.next := by
  induction l generalizing b σ with
  | nil => cases h; exact h0
  | cons a l ih =>
    rw [List.foldlM_cons] at h
    obtain ⟨c, ρ, hc, h⟩ := run_bind_ok h
    exact ih h (hs b a c σ ρ (by simp) h0 hc) fun b a' d ρ ρ' ha' => hs b a' d ρ ρ' (by simp [ha'])

/-- A `mapM` whose calls draw nothing from the supply leaves it as it was. -/
theorem mapM_keeps {f : α → Planning β} {l : List α} {ys : List β} {σ τ : IdSupply}
    (h : (l.mapM f).run σ = .ok (ys, τ))
    (hf : ∀ x y ρ ρ', x ∈ l → (f x).run ρ = .ok (y, ρ') → ρ' = ρ) : τ = σ := by
  induction l generalizing ys σ with
  | nil => cases h; rfl
  | cons x l ih =>
    rw [List.mapM_cons] at h
    obtain ⟨y, ρ, hy, h⟩ := run_bind_ok h
    obtain ⟨zs, ρ', hzs, h⟩ := run_bind_ok h
    cases h
    rw [ih hzs fun x' y' ρ ρ' hx' => hf x' y' ρ ρ' (by simp [hx']), hf x y σ ρ (by simp) hy]

/-- A successful `mapM` relates each input to its output. -/
theorem mapM_forall₂ (R : α → β → Prop) {f : α → Planning β} {l : List α} {ys : List β}
    {σ τ : IdSupply} (h : (l.mapM f).run σ = .ok (ys, τ))
    (hR : ∀ x y ρ ρ', x ∈ l → (f x).run ρ = .ok (y, ρ') → R x y) : List.Forall₂ R l ys := by
  induction l generalizing ys σ with
  | nil => cases h; exact .nil
  | cons x l ih =>
    rw [List.mapM_cons] at h
    obtain ⟨y, ρ, hy, h⟩ := run_bind_ok h
    obtain ⟨zs, ρ', hzs, h⟩ := run_bind_ok h
    cases h
    exact .cons (hR x y σ ρ (by simp) hy) (ih hzs fun x' y' ρ ρ' hx' => hR x' y' ρ ρ' (by simp [hx']))

/-- A call made by a `mapM`: its input, its output, and the stretch `[start, stop)` of the
supply it drew from. -/
structure Call (α β : Type) where
  input : α
  output : β
  start : Nat
  stop : Nat

/-- A successful `mapM` whose calls only draw from the supply: each call relates its input
and output to the stretch it drew from, and the stretches follow one another within the
supply the whole `mapM` drew from. -/
theorem mapM_calls (R : α → β → Nat → Nat → Prop) {f : α → Planning β} {l : List α}
    {ys : List β} {σ τ : IdSupply} (h : (l.mapM f).run σ = .ok (ys, τ))
    (hR : ∀ x y ρ ρ', x ∈ l → (f x).run ρ = .ok (y, ρ') → ρ.next ≤ ρ'.next ∧ R x y ρ.next ρ'.next) :
    ∃ w : List (Call α β), w.map Call.input = l ∧ w.map Call.output = ys ∧ σ.next ≤ τ.next ∧
      (∀ e ∈ w, R e.input e.output e.start e.stop ∧ σ.next ≤ e.start ∧ e.start ≤ e.stop ∧
        e.stop ≤ τ.next) ∧
      w.Pairwise (fun e e' => e.stop ≤ e'.start) := by
  induction l generalizing ys σ with
  | nil => cases h; exact ⟨[], rfl, rfl, Nat.le_refl _, by simp, .nil⟩
  | cons x l ih =>
    rw [List.mapM_cons] at h
    obtain ⟨y, ρ, hy, h⟩ := run_bind_ok h
    obtain ⟨zs, ρ', hzs, h⟩ := run_bind_ok h
    cases h
    obtain ⟨hle, hxy⟩ := hR x y σ ρ (by simp) hy
    obtain ⟨w, hin, hout, hρ, hw, hp⟩ :=
      ih hzs fun x' y' ρ ρ' hx' => hR x' y' ρ ρ' (by simp [hx'])
    refine ⟨⟨x, y, σ.next, ρ.next⟩ :: w, by simp [hin], by simp [hout], Nat.le_trans hle hρ,
      ?_, List.pairwise_cons.2 ⟨fun e he => (hw e he).2.1, hp⟩⟩
    intro e he
    rcases List.mem_cons.1 he with rfl | he
    · exact ⟨hxy, Nat.le_refl _, hle, hρ⟩
    · obtain ⟨hr, h1, h2, h3⟩ := hw e he
      exact ⟨hr, Nat.le_trans hle h1, h2, h3⟩

end Planning

end Fabrication
