import Mathlib.Algebra.Order.Ring.Int

/-!
# Threads and a mutex

Threads at program points, and a mutex with its owner. If the points inside its critical sections
are those of the owner and no others, what is true of the owner's point is true of the only
thread that can be inside: a step of another thread does not see or change it.
-/

namespace NextEmu.Lib.Mutex

variable {ι P : Type} {inside : P → Bool} {owner : Option ι} {point : ι → P} {t u : ι} {p q : P}

/-- The owner is inside, and nobody else is. -/
def Guards (inside : P → Bool) (owner : Option ι) (point : ι → P) : Prop :=
  ∀ t, inside (point t) = true ↔ owner = some t

/-- Where the owner is. -/
def user (owner : Option ι) (point : ι → P) : Option P := owner.map point

/-- A mutex that is free while every thread is outside. -/
theorem guards_free (h : ∀ t, inside (point t) = false) : Guards inside none point := by
  intro t
  rw [h t]
  exact iff_of_false Bool.false_ne_true nofun

namespace Guards

theorem exclusive (h : Guards inside owner point) (ht : inside (point t) = true)
    (hu : inside (point u) = true) : t = u :=
  Option.some.inj (((h t).mp ht).symm.trans ((h u).mp hu))

theorem user_eq (h : Guards inside owner point) (ht : inside (point t) = true) :
    user owner point = some (point t) := by
  rw [(h t).mp ht]
  rfl

variable [DecidableEq ι]

theorem acquire (h : Guards inside none point) (hp : inside p = true) :
    Guards inside (some t) (Function.update point t p) := by
  intro u
  by_cases hu : u = t
  · subst hu
    rw [Function.update_self]
    exact iff_of_true hp rfl
  · rw [Function.update_of_ne hu]
    refine iff_of_false (fun hin => ?_) fun heq => hu (Option.some.inj heq).symm
    cases (h u).mp hin

theorem release (h : Guards inside owner point) (ht : inside (point t) = true)
    (hp : inside p = false) : Guards inside none (Function.update point t p) := by
  refine guards_free fun u => ?_
  by_cases hu : u = t
  · subst hu
    rwa [Function.update_self]
  · rw [Function.update_of_ne hu]
    exact Bool.eq_false_iff.mpr fun hin => hu (h.exclusive hin ht)

theorem move (h : Guards inside owner point) (hp : inside p = inside (point t)) :
    Guards inside owner (Function.update point t p) := by
  intro u
  by_cases hu : u = t
  · subst hu
    rw [Function.update_self, hp]
    exact h u
  · rw [Function.update_of_ne hu]
    exact h u

theorem user_inside (h : Guards inside owner point) (ht : inside (point t) = true) :
    user owner (Function.update point t p) = some p := by
  rw [(h t).mp ht]
  exact congrArg some (Function.update_self t p point)

theorem user_outside (h : Guards inside owner point) (ht : inside (point t) = false) :
    user owner (Function.update point t p) = user owner point := by
  cases howner : owner with
  | none => rfl
  | some u =>
    have hne : u ≠ t := by
      rintro rfl
      exact Bool.false_ne_true (ht.symm.trans ((h u).mpr howner))
    exact congrArg some (Function.update_of_ne hne p point)

end Guards

theorem user_acquire [DecidableEq ι] : user (some t) (Function.update point t p) = some p :=
  congrArg some (Function.update_self t p point)

/-! ## What a mutex protects -/

/-- `R` holds with the owner where it is, or with no owner. -/
structure Protects (inside : P → Bool) (R : Option P → Prop) (owner : Option ι)
    (point : ι → P) : Prop where
  guards : Guards inside owner point
  holds : R (user owner point)

namespace Protects

variable {R R' : Option P → Prop}

/-- What is protected, at the point of a thread inside. -/
theorem holds_inside (h : Protects inside R owner point) (ht : point t = q)
    (hq : inside q = true) : R (some q) := by
  subst ht
  rw [← h.guards.user_eq hq]
  exact h.holds

variable [DecidableEq ι]

/-- A thread outside moves. -/
theorem other (h : Protects inside R owner point) (ht : point t = q) (hq : inside q = false)
    (hp : inside p = false) (hR : ∀ x, R x → R' x) :
    Protects inside R' owner (Function.update point t p) where
  guards := h.guards.move (by rw [ht, hp, hq])
  holds := by
    rw [h.guards.user_outside (ht ▸ hq)]
    exact hR _ h.holds

theorem acquire (h : Protects inside R owner point) (hfree : owner = none)
    (hp : inside p = true) (hR : R none → R' (some p)) :
    Protects inside R' (some t) (Function.update point t p) := by
  subst hfree
  refine ⟨h.guards.acquire hp, ?_⟩
  rw [user_acquire]
  exact hR h.holds

/-- The owner moves. -/
theorem proceed (h : Protects inside R owner point) (ht : point t = q) (hq : inside q = true)
    (hp : inside p = true) (hR : R (some q) → R' (some p)) :
    Protects inside R' owner (Function.update point t p) where
  guards := h.guards.move (by rw [ht, hp, hq])
  holds := by
    rw [h.guards.user_inside (ht ▸ hq)]
    exact hR (h.holds_inside ht hq)

theorem release (h : Protects inside R owner point) (ht : point t = q) (hq : inside q = true)
    (hp : inside p = false) (hR : R (some q) → R' none) :
    Protects inside R' none (Function.update point t p) where
  guards := h.guards.release (ht ▸ hq) hp
  holds := hR (h.holds_inside ht hq)

end Protects

/-! ## Interleavings -/

section Interleavings

variable {σ α : Type} {act : σ → α → Option σ} {s s' : σ} {actions : List α}

/-- What is said of a state and of the actions that are still to come holds to the end of an
interleaving if each step keeps it. -/
theorem interleaving_keeps {R : σ → List α → Prop}
    (hstep : ∀ s a actions s', R s (a :: actions) → act s a = some s' → R s' actions)
    (h : R s actions) (hrun : actions.foldlM act s = some s') : R s' [] := by
  induction actions generalizing s with
  | nil =>
    cases hrun
    exact h
  | cons a actions ih =>
    rw [List.foldlM_cons] at hrun
    obtain ⟨s₁, hact, hrest⟩ := Option.bind_eq_some_iff.mp hrun
    exact ih (hstep s a actions s₁ h hact) hrest

end Interleavings

end NextEmu.Lib.Mutex
