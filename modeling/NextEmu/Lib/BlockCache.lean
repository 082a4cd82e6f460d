import Mathlib.Algebra.Order.Ring.Int

/-!
# Caches of a block function

A partial function answers each key with a value, and a value covers the keys it
is the answer to: the blocks of the function are what its values cover. A cache
keeps a value in each of its slots. What makes it transparent is that every slot
answers rightly for the keys it covers, and what makes a lookup unambiguous is
that no two slots cover one key. Filling a slot after a miss keeps both, because
blocks that meet are equal, and so does dropping any set of slots.
-/

namespace NextEmu.Lib.BlockCache

variable {ι κ ν : Type} (covers : ν → κ → Prop) (answer : κ → Option ν)

/-- The values of `answer` partition the keys that have one. -/
structure Blocks : Prop where
  own : ∀ k e, answer k = some e → covers e k
  same : ∀ k e k', answer k = some e → covers e k' → answer k' = some e

/-- Every slot holds the answer to the keys that it covers. -/
def Fits (slots : ι → ν) : Prop := ∀ i k, covers (slots i) k → answer k = some (slots i)

/-- No two slots cover one key. -/
def Single (slots : ι → ν) : Prop := ∀ i j k, covers (slots i) k → covers (slots j) k → i = j

/-- The value covers no key that one of these slots covers. -/
def Apart (slots : ι → ν) (p : ι → Prop) (e : ν) : Prop :=
  ∀ j, p j → ∀ k, covers e k → ¬ covers (slots j) k

/-- One slot filled anew. -/
def put [DecidableEq ι] (slots : ι → ν) (i : ι) (e : ν) : ι → ν :=
  fun j => if j = i then e else slots j

/-- Each slot stays or covers nothing any more. -/
def Dropped (slots slots' : ι → ν) : Prop :=
  ∀ j, slots' j = slots j ∨ ∀ k, ¬ covers (slots' j) k

variable {covers answer} {slots slots' : ι → ν}

theorem Fits.dropped (h : Fits covers answer slots) (hd : Dropped covers slots slots') :
    Fits covers answer slots' := by
  intro i k hc
  rcases hd i with he | hn
  · rw [he] at hc ⊢
    exact h i k hc
  · exact absurd hc (hn k)

theorem Single.dropped (h : Single covers slots) (hd : Dropped covers slots slots') :
    Single covers slots' := by
  intro i j k hi hj
  rcases hd i with he | hn
  · rcases hd j with he' | hn'
    · rw [he] at hi
      rw [he'] at hj
      exact h i j k hi hj
    · exact absurd hj (hn' k)
  · exact absurd hi (hn k)

theorem single_of_empty (h : ∀ i k, ¬ covers (slots i) k) : Single covers slots :=
  fun i _ k hi _ => absurd hi (h i k)

theorem fits_of_empty (h : ∀ i k, ¬ covers (slots i) k) : Fits covers answer slots :=
  fun i k hi => absurd hi (h i k)

/-- After a miss the answer meets no slot: a slot that it met would be the answer itself. -/
theorem Fits.apart (h : Fits covers answer slots) (hb : Blocks covers answer) {k : κ} {e : ν}
    (ha : answer k = some e) (hmiss : ∀ j, ¬ covers (slots j) k) :
    Apart covers slots (fun _ => True) e := by
  intro j _ k' hk' hj
  have he : answer k' = some e := hb.same k e k' ha hk'
  have hs : answer k' = some (slots j) := h j k' hj
  have heq : slots j = e := Option.some.inj (hs.symm.trans he)
  exact hmiss j (heq ▸ hb.own k e ha)

section Put

variable [DecidableEq ι] {i : ι} {e : ν}

theorem Fits.put (h : Fits covers answer slots) (hb : Blocks covers answer) {k : κ}
    (ha : answer k = some e) : Fits covers answer (put slots i e) := by
  intro j k' hc
  by_cases hj : j = i
  · simp only [BlockCache.put, hj, if_true] at hc ⊢
    exact hb.same k e k' ha hc
  · simp only [BlockCache.put, hj, if_false] at hc ⊢
    exact h j k' hc

theorem Single.put (h : Single covers slots) (ha : Apart covers slots (· ≠ i) e) :
    Single covers (put slots i e) := by
  intro j j' k hj hj'
  unfold BlockCache.put at hj hj'
  split at hj <;> split at hj'
  · simp only [*]
  · rename_i hne
    exact absurd hj' (ha j' hne k hj)
  · rename_i hne _
    exact absurd hj (ha j hne k hj')
  · exact h j j' k hj hj'

/-- Filling any slot with the answer to a key that was missed. -/
theorem refill (hf : Fits covers answer slots) (hs : Single covers slots)
    (hb : Blocks covers answer) {k : κ} (ha : answer k = some e)
    (hmiss : ∀ j, ¬ covers (slots j) k) :
    Fits covers answer (put slots i e) ∧ Single covers (put slots i e) :=
  ⟨hf.put hb ha, hs.put (fun j _ => hf.apart hb ha hmiss j trivial)⟩

end Put

end NextEmu.Lib.BlockCache
