import Mathlib.Algebra.Order.Group.Nat
import Mathlib.Data.Nat.Find

/-!
# Dividing a wrapping counter

A counter runs from 0 to `M - 1` and starts over; what it drives fires whenever the count is a
multiple of `c`. In the first `t` steps it fires once for each `c` of them that have begun, as
long as the counter does not wrap, or if it wraps at a multiple of `c`; otherwise the first one
behind the wrap comes early, and so do all after it.
-/

namespace NextEmu.Lib.Divider

/-- How often it fires in the first `t` steps. -/
def fired (M c : Nat) : Nat → Nat
  | 0 => 0
  | t + 1 => if t % M % c = 0 then fired M c t + 1 else fired M c t

/-- How often it fires in the `t` steps behind the count `s`. -/
def firedFrom (M c s : Nat) : Nat → Nat
  | 0 => 0
  | t + 1 => if (s + t) % M % c = 0 then firedFrom M c s t + 1 else firedFrom M c s t

section Begun

variable {c : Nat}

/-- The periods of `c` steps that `t` steps have begun. -/
theorem begun_eq (hpos : 0 < c) (t : Nat) :
    (t + (c - 1)) / c = if t % c = 0 then t / c else t / c + 1 := by
  have hsplit := Nat.div_add_mod t c
  have hlt := Nat.mod_lt t hpos
  by_cases hzero : t % c = 0
  · have hsum : t + (c - 1) = c * (t / c) + (c - 1) := by omega
    have hrest : (c - 1) / c = 0 := Nat.div_eq_of_lt (by omega)
    rw [if_pos hzero, hsum, Nat.mul_add_div hpos, hrest, Nat.add_zero]
  · have hsum : t + (c - 1) = c * (t / c + 1) + (t % c - 1) := by rw [Nat.mul_succ]; omega
    have hrest : (t % c - 1) / c = 0 := Nat.div_eq_of_lt (by omega)
    rw [if_neg hzero, hsum, Nat.mul_add_div hpos, hrest, Nat.add_zero]

theorem begun_succ (hpos : 0 < c) (t : Nat) : (t + 1 + (c - 1)) / c = t / c + 1 := by
  have hsum : t + 1 + (c - 1) = t + c := by omega
  rw [hsum, Nat.add_div_right t hpos]

theorem begun_le_iff (hpos : 0 < c) {t q : Nat} : (t + (c - 1)) / c ≤ q ↔ t ≤ c * q := by
  rw [Nat.div_le_iff_le_mul_add_pred hpos]
  omega

end Begun

section Fired

variable {M c : Nat}

/-- One step of a count that does not know of the wrap. -/
theorem fired_step (hpos : 0 < c) {t : Nat} (hmod : t % M % c = t % c)
    (h : fired M c t = (t + (c - 1)) / c) : fired M c (t + 1) = (t + 1 + (c - 1)) / c := by
  rw [fired, hmod, h, begun_succ hpos, begun_eq hpos]
  split
  · rfl
  · rfl

theorem fired_eq (hpos : 0 < c) {t : Nat} (h : t ≤ M ∨ c ∣ M) :
    fired M c t = (t + (c - 1)) / c := by
  induction t with
  | zero =>
    have hnone : (0 + (c - 1)) / c = 0 := Nat.div_eq_of_lt (by omega)
    rw [hnone]
    rfl
  | succ t ih =>
    rcases h with hle | hdvd
    · exact fired_step hpos (by rw [Nat.mod_eq_of_lt hle]) (ih (.inl (Nat.le_of_succ_le hle)))
    · exact fired_step hpos (Nat.mod_mod_of_dvd t hdvd) (ih (.inr hdvd))

theorem fired_add (M c t : Nat) : fired M c (M + t) = fired M c M + fired M c t := by
  induction t with
  | zero => rfl
  | succ t ih =>
    have hmod : (M + t) % M = t % M := Nat.add_mod_left M t
    rw [← Nat.add_assoc, fired, fired, hmod, ih]
    split
    · rfl
    · rfl

/-- It never fires late. -/
theorem le_mul_fired (hpos : 0 < c) (hM : 0 < M) (t : Nat) : t ≤ c * fired M c t := by
  induction t using Nat.strong_induction_on with
  | _ t ih =>
    by_cases hle : t ≤ M
    · rw [fired_eq hpos (.inl hle)]
      exact (begun_le_iff hpos).mp (Nat.le_refl _)
    · obtain ⟨s, rfl⟩ : ∃ s, t = M + s := ⟨t - M, by omega⟩
      have hfirst := (begun_le_iff hpos (t := M)).mp (Nat.le_refl _)
      have hrest := ih s (by omega)
      rw [fired_add, fired_eq hpos (.inl (Nat.le_refl M)), Nat.mul_add]
      omega

/-- Behind a wrap that is not at a multiple of `c` it is early. -/
theorem lt_fired (hpos : 0 < c) (hM : 0 < M) (hdvd : ¬ c ∣ M) {m : Nat} (h : M < c * m) :
    m < fired M c (c * m) := by
  obtain ⟨s, hs⟩ : ∃ s, c * m = M + s := ⟨c * m - M, by omega⟩
  have hfirst := (begun_le_iff hpos (t := M)).mp (Nat.le_refl _)
  have hrest := le_mul_fired hpos hM s
  have hne : c * ((M + (c - 1)) / c) ≠ M := fun heq => hdvd ⟨_, heq.symm⟩
  have hmul : c * m < c * fired M c (c * m) := by
    have hsplit := fired_add M c s
    rw [fired_eq hpos (.inl (Nat.le_refl M))] at hsplit
    rw [hs, hsplit, Nat.mul_add]
    omega
  exact Nat.lt_of_mul_lt_mul_left hmul

/-- It fires for every number. -/
theorem exists_fire (hpos : 0 < c) (hM : 0 < M) (m : Nat) :
    ∃ t, fired M c t = m ∧ t % M % c = 0 := by
  have hmore : ∃ t, m < fired M c t := by
    refine ⟨c * m + 1, ?_⟩
    have hle := le_mul_fired hpos hM (c * m + 1)
    exact Nat.lt_of_mul_lt_mul_left (Nat.lt_of_succ_le hle)
  have hfind := Nat.find_spec hmore
  cases hfirst : Nat.find hmore with
  | zero =>
    rw [hfirst] at hfind
    exact absurd hfind (Nat.not_lt_zero m)
  | succ t =>
    have hbefore : ¬ m < fired M c t := Nat.find_min hmore (by omega)
    rw [hfirst, fired] at hfind
    by_cases hfire : t % M % c = 0
    · rw [if_pos hfire] at hfind
      exact ⟨t, by omega, hfire⟩
    · rw [if_neg hfire] at hfind
      exact absurd hfind hbefore

theorem fired_from (M c s t : Nat) : fired M c (s + t) = fired M c s + firedFrom M c s t := by
  induction t with
  | zero => rfl
  | succ t ih =>
    rw [← Nat.add_assoc, fired, firedFrom, ih]
    split
    · rfl
    · rfl

theorem firedFrom_zero (M c t : Nat) : firedFrom M c 0 t = fired M c t := by
  have hall := fired_from M c 0 t
  rw [Nat.zero_add, fired, Nat.zero_add] at hall
  exact hall.symm

/-- From any count on it fires any number of times. -/
theorem exists_firedFrom (hpos : 0 < c) (hM : 0 < M) (s m : Nat) :
    ∃ t, firedFrom M c s t = m := by
  obtain ⟨t, ht, -⟩ := exists_fire hpos hM (fired M c s + m)
  rcases Nat.le_total s t with hle | hle
  · obtain ⟨d, rfl⟩ := Nat.exists_eq_add_of_le hle
    rw [fired_from] at ht
    exact ⟨d, Nat.add_left_cancel ht⟩
  · obtain ⟨d, rfl⟩ := Nat.exists_eq_add_of_le hle
    rw [fired_from] at ht
    have hnone : 0 = m := by omega
    exact ⟨0, hnone⟩

end Fired

end NextEmu.Lib.Divider
