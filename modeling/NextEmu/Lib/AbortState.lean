import Mathlib.Algebra.Order.Ring.Int

/-!
# Stateful code that can abort

Code with assertions is a state transformer with two outcomes: it returns a
value and a state, or it stops at a failed assertion and leaves the state it had
reached. `EStateM` keeps that state, so what an aborted run has already done
stays visible.

`wp x Q E s` is the weakest precondition with one postcondition for each
outcome. `Relates R E x` says that `x` relates its start to its end, by `R` when
it returns and by `E` when it aborts; `Tracks R P x` is the case in which an
abort keeps `R` too. They are closed under sequencing when `R` is transitive, so
they carry a frame condition or an invariant through a program by its structure
alone.
-/

namespace NextEmu.Lib.AbortState

variable {ε σ α β : Type}

/-- The weakest precondition of `x` for a normal and an aborted end. -/
def wp (x : EStateM ε σ α) (Q : α → σ → Prop) (E : ε → σ → Prop) (s : σ) : Prop :=
  match x s with
  | .ok a t => Q a t
  | .error e t => E e t

/-- The state that `x` leaves, whichever way it ends. -/
def final (x : EStateM ε σ α) (s : σ) : σ :=
  match x s with
  | .ok _ t => t
  | .error _ t => t

theorem final_of_ok {x : EStateM ε σ α} {s t : σ} {a : α} (h : x s = .ok a t) : final x s = t := by
  simp only [final, h]

theorem final_of_error {x : EStateM ε σ α} {s t : σ} {e : ε} (h : x s = .error e t) :
    final x s = t := by
  simp only [final, h]

/-- Whether `x` returns. -/
def returns (x : EStateM ε σ α) (s : σ) : Bool :=
  match x s with
  | .ok _ _ => true
  | .error _ _ => false

/-- Runs that are equal end in one state and return alike. -/
theorem final_congr {x y : EStateM ε σ α} {s t : σ} (h : x s = y t) : final x s = final y t := by
  unfold final
  rw [h]

theorem returns_congr {x y : EStateM ε σ α} {s t : σ} (h : x s = y t) :
    returns x s = returns y t := by
  unfold returns
  rw [h]

theorem eq_final {x : EStateM ε σ Unit} {s : σ} (h : returns x s = true) :
    x s = .ok () (final x s) := by
  unfold returns at h
  unfold final
  cases hx : x s with
  | ok a t => rfl
  | error e t => rw [hx] at h; cases h

/-- The failed assertion that `x` stops at. -/
def aborted (x : EStateM ε σ α) (s : σ) : Option ε :=
  match x s with
  | .ok _ _ => none
  | .error e _ => some e

theorem eq_aborted {x : EStateM ε σ α} {s : σ} {e : ε} (h : aborted x s = some e) :
    x s = .error e (final x s) := by
  unfold aborted at h
  unfold final
  cases hx : x s with
  | ok a t => rw [hx] at h; cases h
  | error e' t => rw [hx] at h; cases h; rfl

/-- A result with the state that it leaves replaced. -/
def mapState (f : σ → σ) : EStateM.Result ε σ α → EStateM.Result ε σ α
  | .ok a s => .ok a (f s)
  | .error e s => .error e (f s)

section Rules

variable {Q : β → σ → Prop} {E : ε → σ → Prop} {s : σ}

@[simp] theorem wp_pure (a : β) : wp (pure a : EStateM ε σ β) Q E s ↔ Q a s := Iff.rfl

@[simp] theorem wp_throw (e : ε) : wp (throw e : EStateM ε σ β) Q E s ↔ E e s := Iff.rfl

@[simp] theorem wp_bind (x : EStateM ε σ α) (f : α → EStateM ε σ β) :
    wp (x >>= f) Q E s ↔ wp x (fun a t => wp (f a) Q E t) E s := by
  unfold wp
  simp only [bind, EStateM.bind]
  cases x s <;> rfl

@[simp] theorem wp_ite (c : Prop) [Decidable c] (x y : EStateM ε σ β) :
    wp (if c then x else y) Q E s ↔ (c → wp x Q E s) ∧ (¬ c → wp y Q E s) := by
  by_cases h : c <;> simp [h]

theorem wp_mono {Q' : β → σ → Prop} {E' : ε → σ → Prop} {x : EStateM ε σ β}
    (h : wp x Q E s) (hQ : ∀ a t, Q a t → Q' a t) (hE : ∀ e t, E e t → E' e t) :
    wp x Q' E' s := by
  unfold wp at h ⊢
  cases hx : x s with
  | ok a t => rw [hx] at h; exact hQ a t h
  | error e t => rw [hx] at h; exact hE e t h

theorem wp_and {Q' : β → σ → Prop} {E' : ε → σ → Prop} {x : EStateM ε σ β}
    (h : wp x Q E s) (h' : wp x Q' E' s) :
    wp x (fun a t => Q a t ∧ Q' a t) (fun e t => E e t ∧ E' e t) s := by
  unfold wp at h h' ⊢
  cases hx : x s with
  | ok a t => rw [hx] at h h'; exact ⟨h, h'⟩
  | error e t => rw [hx] at h h'; exact ⟨h, h'⟩

/-- Runs that are equal have the same postconditions. -/
theorem wp_congr {x y : EStateM ε σ β} {t : σ} (h : x s = y t) (hy : wp y Q E t) : wp x Q E s := by
  unfold wp
  rw [h]
  exact hy

/-- The strongest postcondition: the run itself. -/
theorem wp_run (x : EStateM ε σ β) (s : σ) :
    wp x (fun a t => x s = .ok a t) (fun e t => x s = .error e t) s := by
  unfold wp
  cases x s <;> rfl

theorem wp_ok {x : EStateM ε σ β} {a : β} {t : σ} (h : wp x Q E s) (hx : x s = .ok a t) :
    Q a t := by
  unfold wp at h
  rwa [hx] at h

theorem wp_error {x : EStateM ε σ β} {e : ε} {t : σ} (h : wp x Q E s) (hx : x s = .error e t) :
    E e t := by
  unfold wp at h
  rwa [hx] at h

/-! Running a program, for the statements that say what its one outcome is. -/

theorem run_get (s : σ) : (get : EStateM ε σ σ) s = .ok s s := rfl

theorem run_modify (f : σ → σ) (s : σ) : (modify f : EStateM ε σ Unit) s = .ok () (f s) := rfl

theorem run_bind (x : EStateM ε σ α) (f : α → EStateM ε σ β) :
    (x >>= f) s = match x s with
      | .ok a t => f a t
      | .error e t => .error e t := by
  simp only [bind, EStateM.bind]
  cases x s <;> rfl

/-- The first command returned, so the sequence runs on from its end. -/
theorem bind_of_ok {x : EStateM ε σ α} {f : α → EStateM ε σ β} {a : α} {t : σ}
    (hx : x s = .ok a t) : (x >>= f) s = f a t := by
  simp only [bind, EStateM.bind, hx]

/-- Sequences whose first halves run alike. -/
theorem bind_congr_run {x y : EStateM ε σ α} {f : α → EStateM ε σ β} {t : σ} (h : x s = y t) :
    (x >>= f) s = (y >>= f) t := by
  simp only [bind, EStateM.bind, h]

theorem bind_of_error {x : EStateM ε σ α} {f : α → EStateM ε σ β} {e : ε} {t : σ}
    (hx : x s = .error e t) : (x >>= f) s = .error e t := by
  simp only [bind, EStateM.bind, hx]

/-- A sequence that returned has a first half that returned. -/
theorem bind_ok {x : EStateM ε σ α} {f : α → EStateM ε σ β} {b : β} {u : σ}
    (h : (x >>= f) s = .ok b u) : ∃ a t, x s = .ok a t ∧ f a t = .ok b u := by
  simp only [bind, EStateM.bind] at h
  cases hx : x s with
  | ok a t => rw [hx] at h; exact ⟨a, t, rfl, h⟩
  | error e t => rw [hx] at h; cases h

end Rules

/-- `R` relates the start of `x` to its end when it returns, and `E` when it aborts. -/
def Relates (R : σ → σ → Prop) (E : ε → σ → σ → Prop) (x : EStateM ε σ α) : Prop :=
  ∀ s, wp x (fun _ t => R s t) (fun e t => E e s t) s

section Relates

variable {R : σ → σ → Prop} {E : ε → σ → σ → Prop}

theorem Relates.pure (hR : ∀ s, R s s) (a : α) : Relates R E (pure a : EStateM ε σ α) :=
  fun s => hR s

theorem Relates.throw {e : ε} (hE : ∀ s, E e s s) : Relates R E (throw e : EStateM ε σ α) :=
  fun s => hE s

/-- Sequencing composes the relations; an abort of either half is an abort. The second half needs
to be for those answers of the first that `G` is true of. -/
theorem Relates.bind_of {G : α → Prop} (hR : ∀ s t u, R s t → R t u → R s u)
    (hE : ∀ e s t u, R s t → E e t u → E e s u) {x : EStateM ε σ α} {f : α → EStateM ε σ β}
    (hx : Relates R E x) (hG : ∀ s, wp x (fun a _ => G a) (fun _ _ => True) s)
    (hf : ∀ a, G a → Relates R E (f a)) : Relates R E (x >>= f) := by
  intro s
  rw [wp_bind]
  refine wp_mono (wp_and (hx s) (hG s)) (fun a t ht => ?_) (fun e t h => h.1)
  exact wp_mono (hf a ht.2 t) (fun b u htu => hR s t u ht.1 htu)
    (fun e u h => hE e s t u ht.1 h)

theorem Relates.bind (hR : ∀ s t u, R s t → R t u → R s u)
    (hE : ∀ e s t u, R s t → E e t u → E e s u) {x : EStateM ε σ α} {f : α → EStateM ε σ β}
    (hx : Relates R E x) (hf : ∀ a, Relates R E (f a)) : Relates R E (x >>= f) :=
  Relates.bind_of (G := fun _ => True) hR hE hx
    (fun s => wp_mono (hx s) (fun _ _ _ => trivial) (fun _ _ _ => trivial)) (fun a _ => hf a)

theorem Relates.ite_of {c : Prop} [Decidable c] {x y : EStateM ε σ α}
    (hx : c → Relates R E x) (hy : ¬ c → Relates R E y) : Relates R E (if c then x else y) := by
  by_cases h : c
  · rw [if_pos h]
    exact hx h
  · rw [if_neg h]
    exact hy h

theorem Relates.ite {c : Prop} [Decidable c] {x y : EStateM ε σ α}
    (hx : Relates R E x) (hy : Relates R E y) : Relates R E (if c then x else y) :=
  .ite_of (fun _ => hx) fun _ => hy

end Relates

/-- However `x` ends, `R` relates its start to its end; an abort satisfies `P`. -/
def Tracks (R : σ → σ → Prop) (P : ε → σ → Prop) (x : EStateM ε σ α) : Prop :=
  ∀ s, wp x (fun _ t => R s t) (fun e t => R s t ∧ P e t) s

section Tracks

variable {R : σ → σ → Prop} {P : ε → σ → Prop}

theorem Tracks.pure (hR : ∀ s, R s s) (a : α) : Tracks R P (pure a : EStateM ε σ α) :=
  Relates.pure hR a

theorem Tracks.throw (hR : ∀ s, R s s) {e : ε} (hP : ∀ s, P e s) :
    Tracks R P (throw e : EStateM ε σ α) :=
  Relates.throw fun s => ⟨hR s, hP s⟩

theorem Tracks.bind (hR : ∀ s t u, R s t → R t u → R s u)
    {x : EStateM ε σ α} {f : α → EStateM ε σ β}
    (hx : Tracks R P x) (hf : ∀ a, Tracks R P (f a)) : Tracks R P (x >>= f) :=
  Relates.bind hR (fun _ s t u hst h => ⟨hR s t u hst h.1, h.2⟩) hx hf

theorem Tracks.mono {R' : σ → σ → Prop} {x : EStateM ε σ α} (h : Tracks R P x)
    (hR : ∀ s t, R s t → R' s t) : Tracks R' P x :=
  fun s => wp_mono (h s) (fun _ t => hR s t) (fun _ t ht => ⟨hR s t ht.1, ht.2⟩)

theorem Tracks.ite {c : Prop} [Decidable c] {x y : EStateM ε σ α}
    (hx : Tracks R P x) (hy : Tracks R P y) : Tracks R P (if c then x else y) :=
  Relates.ite hx hy

theorem Tracks.ok {x : EStateM ε σ α} (h : Tracks R P x) {s t : σ} {a : α}
    (hx : x s = .ok a t) : R s t := wp_ok (Q := fun _ t => R s t) (h s) hx

theorem Tracks.error {x : EStateM ε σ α} (h : Tracks R P x) {s t : σ} {e : ε}
    (hx : x s = .error e t) : R s t ∧ P e t :=
  wp_error (E := fun e t => R s t ∧ P e t) (h s) hx

theorem Tracks.final {x : EStateM ε σ α} (h : Tracks R P x) (s : σ) :
    R s (final x s) := by
  unfold AbortState.final
  cases hx : x s with
  | ok a t => exact h.ok hx
  | error e t => exact (h.error hx).1

end Tracks

/-! Code on two kinds of states, the one a view of the other. -/

/-- A result, with the state that it leaves seen through `f`. -/
def seen {τ : Type} (f : σ → τ) : EStateM.Result ε σ α → EStateM.Result ε τ α
  | .ok a s => .ok a (f s)
  | .error e s => .error e (f s)

/-- `y` does to what `f` shows of a state what `x` does to the state. -/
def Mirrors {τ : Type} (f : σ → τ) (x : EStateM ε σ α) (y : EStateM ε τ α) : Prop :=
  ∀ s, y (f s) = seen f (x s)

section Mirrors

variable {τ : Type} {f : σ → τ}

theorem Mirrors.pure (a : α) : Mirrors f (pure a : EStateM ε σ α) (pure a) := fun _ => rfl

theorem Mirrors.throw (e : ε) : Mirrors f (throw e : EStateM ε σ α) (throw e) := fun _ => rfl

theorem Mirrors.bind {x : EStateM ε σ α} {y : EStateM ε τ α} {g : α → EStateM ε σ β}
    {h : α → EStateM ε τ β} (hxy : Mirrors f x y) (hgh : ∀ a, Mirrors f (g a) (h a)) :
    Mirrors f (x >>= g) (y >>= h) := by
  intro s
  have hs := hxy s
  cases hx : x s with
  | ok a t =>
    rw [hx] at hs
    rw [bind_of_ok hx, bind_of_ok hs]
    exact hgh a t
  | error e t =>
    rw [hx] at hs
    rw [bind_of_error hx, bind_of_error hs]
    rfl

theorem Mirrors.ite {c : Prop} [Decidable c] {x x' : EStateM ε σ α} {y y' : EStateM ε τ α}
    (h : Mirrors f x y) (h' : Mirrors f x' y') :
    Mirrors f (if c then x else x') (if c then y else y') := by
  split
  · exact h
  · exact h'

end Mirrors

end NextEmu.Lib.AbortState
