import Mathlib.Algebra.Order.Ring.Int

/-!
# Polling

A loop that lets a system take a step as long as a condition does not hold. The number of
steps is bounded by fuel; a loop that runs out of it has not ended, so that a loop which
ends for no fuel runs for ever.
-/

namespace NextEmu.Lib.Polling

variable {σ : Type} {stop : σ → Bool} {next : σ → σ} {I : σ → Prop} {s t : σ} {n : Nat}

/-- `while (!stop) next;` -/
def poll (stop : σ → Bool) (next : σ → σ) : Nat → σ → Option σ
  | 0, _ => none
  | n + 1, s => if stop s then some s else poll stop next n (next s)

/-- What the steps of the loop keep holds behind it, and so does its condition. -/
theorem poll_some (hstep : ∀ s, I s → stop s = false → I (next s)) (hs : I s)
    (h : poll stop next n s = some t) : I t ∧ stop t = true := by
  induction n generalizing s with
  | zero => cases h
  | succ n ih =>
    rw [poll] at h
    cases hstop : stop s with
    | true =>
      rw [hstop, if_pos rfl] at h
      obtain rfl := Option.some.inj h
      exact ⟨hs, hstop⟩
    | false =>
      rw [hstop, if_neg Bool.false_ne_true] at h
      exact ih (hstep s hs hstop) h

/-- A loop whose steps keep its condition false never ends. -/
theorem poll_none (hstep : ∀ s, I s → I (next s)) (hfalse : ∀ s, I s → stop s = false) (hs : I s)
    (n : Nat) : poll stop next n s = none := by
  cases h : poll stop next n s with
  | none => rfl
  | some t =>
    obtain ⟨hI, htrue⟩ := poll_some (fun s hs _ => hstep s hs) hs h
    rw [hfalse t hI] at htrue
    cases htrue

end NextEmu.Lib.Polling
