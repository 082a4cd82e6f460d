import NextEmu.Lib.AbortState
import NextEmu.Simple.Step

/-!
# Runs

What a guest program can bring a core to: steps from reset, each started with an
empty trace so that a run may be restricted by what its steps do.
-/

namespace NextEmu.Simple

open NextEmu.Lib.AbortState NextEmu.Sdk

variable {β : Type} [SlaveAtomicIOI β]

/-- The machines that a run from reset reaches, in which the trace of every step is `ok`. Between
two steps the interrupt inputs and the bus may change. -/
inductive Reached (ok : List (Event β) → Prop) : Machine β → Prop
  | initial {s : Machine β} (h : s.Initial) : Reached ok s
  | environment {s : Machine β} (h : Reached ok s) (intStatus : IntStatus) (bus : β) :
      Reached ok { s with core := { s.core with intStatus := intStatus }, bus := bus }
  | step {s t : Machine β} (h : Reached ok s) (hstep : step { s with trace := [] } = .ok () t)
      (hok : ok t.trace) : Reached ok t

/-- The same, with a condition on the machine that a step starts from. -/
inductive ReachedIf (pre : Machine β → Prop) : Machine β → Prop
  | initial {s : Machine β} (h : s.Initial) : ReachedIf pre s
  | environment {s : Machine β} (h : ReachedIf pre s) (intStatus : IntStatus) (bus : β) :
      ReachedIf pre { s with core := { s.core with intStatus := intStatus }, bus := bus }
  | step {s t : Machine β} (h : ReachedIf pre s) (hpre : pre s)
      (hstep : step { s with trace := [] } = .ok () t) : ReachedIf pre t

/-- The machine after `n` steps. -/
def after (s : Machine β) : Nat → Machine β
  | 0 => s
  | n + 1 => final step { after s n with trace := [] }

/-- What the steps of a kind preserve holds after a run of them. -/
theorem closed_after {P : Machine β → Prop} {Q : Machine β → Machine β → Prop}
    (hclosed : ∀ s t, P s → Q s t → step { s with trace := [] } = .ok () t → P t)
    {s : Machine β} (h : P s) (n : Nat)
    (hrun : ∀ i, i < n → returns step { after s i with trace := [] } = true ∧
      Q (after s i) (after s (i + 1))) : P (after s n) := by
  induction n with
  | zero => exact h
  | succ n ih =>
    have hn := hrun n (Nat.lt_succ_self n)
    exact hclosed _ _ (ih fun i hi => hrun i (Nat.lt_succ_of_lt hi)) hn.2 (eq_final hn.1)

theorem reached_after {ok : List (Event β) → Prop} {s : Machine β} (h : Reached ok s) (n : Nat)
    (hrun : ∀ i, i < n → returns step { after s i with trace := [] } = true ∧
      ok (after s (i + 1)).trace) : Reached ok (after s n) :=
  closed_after (Q := fun _ t => ok t.trace) (fun _ _ hs hok hstep => .step hs hstep hok) h n hrun

theorem reachedIf_after {pre : Machine β → Prop} {s : Machine β} (h : ReachedIf pre s) (n : Nat)
    (hrun : ∀ i, i < n →
      returns step { after s i with trace := [] } = true ∧ pre (after s i)) :
    ReachedIf pre (after s n) :=
  closed_after (Q := fun t _ => pre t) (fun _ _ hs hpre hstep => .step hs hpre hstep) h n hrun

end NextEmu.Simple
