import Mathlib.Algebra.Order.Ring.Int

/-!
# Histories

Each step of a system shows an event or none, and a run shows the list of its events. A system
whose calls take many steps is compared with one whose calls are single steps by what they can
show: a relation that each step of the first keeps while the second takes steps that show the same
carries every run over.
-/

namespace NextEmu.Lib.Histories

variable {σ τ ε : Type} {step : σ → Option ε → σ → Prop} {step' : τ → Option ε → τ → Prop}
  {R : σ → τ → Prop} {s t u : σ} {a : τ} {e : ε} {es fs : List ε}

/-- A run and what it shows. -/
inductive Runs (step : σ → Option ε → σ → Prop) : σ → List ε → σ → Prop
  | refl (s : σ) : Runs step s [] s
  | tail {s t u : σ} {es : List ε} {e : Option ε} (h : Runs step s es t) (hstep : step t e u) :
    Runs step s (es ++ e.toList) u

namespace Runs

/-- A step that shows nothing. -/
theorem silent (h : Runs step s es t) (hstep : step t none u) : Runs step s es u := by
  simpa using h.tail hstep

theorem shown (h : Runs step s es t) (hstep : step t (some e) u) : Runs step s (es ++ [e]) u := by
  simpa using h.tail hstep

theorem single {e : Option ε} (hstep : step s e t) : Runs step s e.toList t := by
  simpa using (Runs.refl s).tail hstep

theorem trans (h : Runs step s es t) (h' : Runs step t fs u) : Runs step s (es ++ fs) u := by
  induction h' with
  | refl => simpa using h
  | tail _ hstep ih =>
    rw [← List.append_assoc]
    exact ih.tail hstep

end Runs

/-- Each step is answered by a run that shows the same. -/
def Simulates (step : σ → Option ε → σ → Prop) (step' : τ → Option ε → τ → Prop)
    (R : σ → τ → Prop) : Prop :=
  ∀ s e t a, R s a → step s e t → ∃ b, Runs step' a e.toList b ∧ R t b

/-- What a simulated system shows, the other can show. -/
theorem Simulates.runs (h : Simulates step step' R) (hrel : R s a) (hrun : Runs step s es t) :
    ∃ b, Runs step' a es b ∧ R t b := by
  induction hrun with
  | refl => exact ⟨a, .refl a, hrel⟩
  | tail _ hstep ih =>
    obtain ⟨b, hruns, hrel⟩ := ih
    obtain ⟨c, hstep, hrel⟩ := h _ _ _ _ hrel hstep
    exact ⟨c, hruns.trans hstep, hrel⟩

end NextEmu.Lib.Histories
