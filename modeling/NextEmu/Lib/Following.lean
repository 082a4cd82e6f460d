import NextEmu.Lib.AbortState

/-!
# One program that follows another

Two programs on two kinds of state, where each state of the second shows one of the first.
The second *follows* the first if, whenever the first returns and has counted no more of some
kind of event, the second returns the same in a state that shows the same. `stay` is what the
second keeps besides whenever it returns, and `bad` are the ways it never stops.

A program that never takes back what it has counted can be followed part by part. `p` restricts
the results that have to be followed: the rest is left to what counts them later.
-/

namespace NextEmu.Lib.Following

open NextEmu.Lib.AbortState

structure Setting (δ σ τ : Type) where
  view : τ → σ
  inv : τ → Prop
  stay : τ → τ → Prop
  count : σ → Nat
  bad : δ → Prop
  refl : ∀ t, stay t t
  trans : ∀ t u v, stay t u → stay u v → stay t v
  keep : ∀ t u, inv t → stay t u → inv u

variable {ε δ σ τ α γ : Type}

/-- What `x` returns within `p` and without counting, `y` returns from `t`. -/
def FollowsAt (S : Setting δ σ τ) (p : α → Prop) (x : EStateM ε σ α) (y : EStateM δ τ α) (t : τ) :
    Prop :=
  ∀ a s, x (S.view t) = .ok a s → S.count s = S.count (S.view t) → p a →
    ∃ u, y t = .ok a u ∧ S.view u = s ∧ S.stay t u

/-- `x` takes back nothing that has been counted. -/
def Counts (S : Setting δ σ τ) (x : EStateM ε σ α) : Prop :=
  ∀ s a s', x s = .ok a s' → S.count s ≤ S.count s'

/-- `y` keeps what it is to keep. -/
def Stays (S : Setting δ σ τ) (y : EStateM δ τ α) (t : τ) : Prop :=
  wp y (fun _ u => S.stay t u) (fun e _ => ¬ S.bad e) t

/-- `y` follows `x` from every state. -/
structure Follows (S : Setting δ σ τ) (x : EStateM ε σ α) (y : EStateM δ τ α) : Prop where
  counts : Counts S x
  follows : ∀ t, S.inv t → FollowsAt S (fun _ => True) x y t
  stays : ∀ t, S.inv t → Stays S y t

section Rules

variable {S : Setting δ σ τ} {p : α → Prop} {q : γ → Prop} {x : EStateM ε σ α}
  {y : EStateM δ τ α} {f : α → EStateM ε σ γ} {g : α → EStateM δ τ γ} {t : τ}

theorem FollowsAt.mono (h : FollowsAt S (fun _ => True) x y t) : FollowsAt S p x y t :=
  fun a s hrun hcount _ => h a s hrun hcount trivial

theorem counts_bind (hx : Counts S x) (hf : ∀ a, Counts S (f a)) : Counts S (x >>= f) := by
  intro s b s' h
  obtain ⟨a, s₁, hfirst, hrest⟩ := bind_ok h
  exact Nat.le_trans (hx s a s₁ hfirst) (hf a s₁ b s' hrest)

theorem stays_bind (hinv : S.inv t) (hy : Stays S y t) (hg : ∀ a u, S.inv u → Stays S (g a) u) :
    Stays S (y >>= g) t := by
  unfold Stays
  rw [wp_bind]
  refine wp_mono hy (fun a u hstay => ?_) (fun _ _ he => he)
  exact wp_mono (hg a u (S.keep t u hinv hstay)) (fun _ v hv => S.trans t u v hstay hv)
    (fun _ _ he => he)

/-- The second half has to follow only where the first has led it, and only behind a result
within `p`, when any other is counted there or leads to none within `q`. -/
theorem followsAt_bind (hinv : S.inv t) (hcx : Counts S x) (hcf : ∀ a, Counts S (f a))
    (hx : FollowsAt S p x y t)
    (hskip : ∀ a s b s', ¬ p a → f a s = .ok b s' → q b → S.count s < S.count s')
    (hg : ∀ a u, p a → S.inv u → S.stay t u → x (S.view t) = .ok a (S.view u) →
      FollowsAt S q (f a) (g a) u) :
    FollowsAt S q (x >>= f) (y >>= g) t := by
  intro b s' h hcount hq
  obtain ⟨a, s₁, hfirst, hrest⟩ := bind_ok h
  have hle := hcx _ a s₁ hfirst
  have hle' := hcf a s₁ b s' hrest
  have hp : p a := Classical.byContradiction fun hp => by
    have hlt := hskip a s₁ b s' hp hrest hq
    omega
  obtain ⟨u, hy, hview, hstay⟩ := hx a s₁ hfirst (by omega) hp
  subst hview
  have hinv' := S.keep t u hinv hstay
  obtain ⟨v, hgv, hview', hstay'⟩ := hg a u hp hinv' hstay hfirst b s' hrest (by omega) hq
  exact ⟨v, (bind_of_ok hy).trans hgv, hview', S.trans t u v hstay hstay'⟩

theorem Follows.bind (hx : Follows S x y) (hf : ∀ a, Follows S (f a) (g a)) :
    Follows S (x >>= f) (y >>= g) where
  counts := counts_bind hx.counts fun a => (hf a).counts
  follows t hinv := followsAt_bind hinv hx.counts (fun a => (hf a).counts) (hx.follows t hinv)
    (fun _ _ _ _ hp => absurd trivial hp) fun a u _ hu _ _ => (hf a).follows u hu
  stays t hinv := stays_bind hinv (hx.stays t hinv) fun a => (hf a).stays

theorem Follows.ite {c : Prop} [Decidable c] {x' : EStateM ε σ α} {y' : EStateM δ τ α}
    (h : Follows S x y) (h' : Follows S x' y') :
    Follows S (if c then x else x') (if c then y else y') := by
  split
  · exact h
  · exact h'

theorem follows_pure (a : α) : Follows S (pure a : EStateM ε σ α) (pure a) where
  counts s b s' h := by
    cases h
    exact Nat.le_refl _
  follows t _ b s h _ _ := by
    cases h
    exact ⟨t, rfl, rfl, S.refl t⟩
  stays t _ := S.refl t

/-- Where the first does not return, the second may stop. -/
theorem follows_throw (e : ε) {d : δ} (hd : ¬ S.bad d) :
    Follows S (throw e : EStateM ε σ α) (throw d) where
  counts _ _ _ h := nomatch h
  follows _ _ _ _ h := nomatch h
  stays _ _ := hd

/-- And where it has counted. -/
theorem follows_of_counted {d : δ} (hd : ¬ S.bad d)
    (hcount : ∀ s a s', x s = .ok a s' → S.count s < S.count s') :
    Follows S x (throw d : EStateM δ τ α) where
  counts s a s' h := Nat.le_of_lt (hcount s a s' h)
  follows t _ a s h heq := by
    have hlt := hcount _ a s h
    omega
  stays _ _ := hd

end Rules

end NextEmu.Lib.Following
