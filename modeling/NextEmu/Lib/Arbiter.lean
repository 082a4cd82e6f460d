import Mathlib.Algebra.Order.Ring.Int

/-!
# Arbiters

Of the numbers that ask, an arbiter grants the first one with the greatest rank. One that looks
at the numbers in order knows, after each, which one this is so far: the lemmas say what the next
number changes.
-/

namespace NextEmu.Lib.Arbiter

/-- Of the numbers that ask, the first one with the greatest rank. -/
structure First (asks : Nat → Prop) (rank : Nat → Nat) (i : Nat) : Prop where
  asking : asks i
  greatest : ∀ j, asks j → rank j ≤ rank i
  first : ∀ j, asks j → rank j = rank i → i ≤ j

section First

variable {asks asks' : Nat → Prop} {rank : Nat → Nat} {i j n : Nat}

theorem First.unique (hi : First asks rank i) (hj : First asks rank j) : i = j := by
  have hrank : rank i = rank j :=
    Nat.le_antisymm (hj.greatest i hi.asking) (hi.greatest j hj.asking)
  have hle := hi.first j hj.asking hrank.symm
  have hge := hj.first i hi.asking hrank
  omega

/-- The others may stop to ask. -/
theorem First.restrict (h : First asks rank i) (hi : asks' i)
    (hsub : ∀ j, asks' j → asks j) : First asks' rank i where
  asking := hi
  greatest j hj := h.greatest j (hsub j hj)
  first j hj := h.first j (hsub j hj)

/-- The numbers up to `n` that ask. -/
def UpTo (asks : Nat → Prop) (n : Nat) (j : Nat) : Prop := j ≤ n ∧ asks j

theorem upTo_succ (h : UpTo asks (n + 1) j) : j = n + 1 ∧ asks (n + 1) ∨ UpTo asks n j := by
  obtain ⟨hle, hasks⟩ := h
  by_cases heq : j = n + 1
  · exact .inl ⟨heq, heq ▸ hasks⟩
  · exact .inr ⟨by omega, hasks⟩

/-- The next number does not ask, or has no greater rank. -/
theorem First.keep (h : First (UpTo asks n) rank i) (hnext : asks (n + 1) → rank (n + 1) ≤ rank i) :
    First (UpTo asks (n + 1)) rank i := by
  have hi := h.asking
  constructor
  · exact ⟨Nat.le_succ_of_le hi.1, hi.2⟩
  · intro j hj
    rcases upTo_succ hj with ⟨rfl, hasks⟩ | hj
    · exact hnext hasks
    · exact h.greatest j hj
  · intro j hj hrank
    rcases upTo_succ hj with ⟨rfl, -⟩ | hj
    · exact Nat.le_succ_of_le hi.1
    · exact h.first j hj hrank

/-- The next number asks with a greater rank than all before. -/
theorem First.next (hasks : asks (n + 1))
    (hbefore : ∀ j, UpTo asks n j → rank j < rank (n + 1)) :
    First (UpTo asks (n + 1)) rank (n + 1) := by
  constructor
  · exact ⟨Nat.le_refl _, hasks⟩
  · intro j hj
    rcases upTo_succ hj with ⟨rfl, -⟩ | hj
    · exact Nat.le_refl _
    · exact Nat.le_of_lt (hbefore j hj)
  · intro j hj hrank
    rcases upTo_succ hj with ⟨rfl, -⟩ | hj
    · exact Nat.le_refl _
    · have hlt := hbefore j hj
      omega

end First

end NextEmu.Lib.Arbiter
