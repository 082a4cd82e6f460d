import NextEmu.Lib.ByteMemory

/-!
# Memories seen through a map

A program that uses some addresses of its own finds their bytes at other addresses. The bytes
that it sees are those at the places, and a write at the places is a write at its own addresses
when no other address has one of them for its place.
-/

namespace NextEmu.Lib.MappedMemory

open ByteMemory

variable {v w : Nat}

/-- The places of the addresses that are used. -/
abbrev Placement (v w : Nat) := BitVec v → Option (BitVec w)

/-- `m` is what is seen of `p`. -/
def View (place : Placement v w) (p : Memory w) (m : Memory v) : Prop :=
  ∀ a b, place a = some b → p b = m a

/-- The `n` bytes from `a` on are at the places from `b` on. -/
def Placed (place : Placement v w) (a : BitVec v) (b : BitVec w) (n : Nat) : Prop :=
  ∀ k, k < n → place (a + BitVec.ofNat v k) = some (b + BitVec.ofNat w k)

section Words

variable {place : Placement v w} {p : Memory w} {m : Memory v} {a : BitVec v} {b : BitVec w}
  {n : Nat}

theorem ofNat_succ (x : BitVec w) (k : Nat) :
    x + 1 + BitVec.ofNat w k = x + BitVec.ofNat w (k + 1) := by
  rw [BitVec.add_assoc, Nat.add_comm k 1, BitVec.ofNat_add]
  rfl

theorem Placed.head (h : Placed place a b (n + 1)) : place a = some b := by
  have hfirst := h 0 (Nat.succ_pos n)
  rw [BitVec.add_zero, BitVec.add_zero] at hfirst
  exact hfirst

theorem Placed.tail (h : Placed place a b (n + 1)) : Placed place (a + 1) (b + 1) n := by
  intro k hk
  rw [ofNat_succ, ofNat_succ]
  exact h (k + 1) (Nat.succ_lt_succ hk)

/-- A word is the same on both sides. -/
theorem View.word (hview : View place p m) (h : Placed place a b n) :
    word p b n = word m a n := by
  induction n generalizing a b with
  | zero => rfl
  | succ n ih =>
    unfold ByteMemory.word
    rw [ih h.tail, hview a b h.head]

/-- A write is one on both sides, when its places are those of its own addresses alone. -/
theorem View.store (hview : View place p m) (h : Placed place a b n) (hv : n ≤ 2 ^ v)
    (hw : n ≤ 2 ^ w)
    (hown : ∀ c k, k < n → place c = some (b + BitVec.ofNat w k) → c = a + BitVec.ofNat v k)
    (x : BitVec (8 * n)) :
    View place (Write.apply ⟨b, n, x⟩ p) (Write.apply ⟨a, n, x⟩ m) := by
  intro c d hcd
  change (if (d - b).toNat < n then x.extractLsb' (8 * (d - b).toNat) 8 else p d) =
    (if (c - a).toNat < n then x.extractLsb' (8 * (c - a).toNat) 8 else m c)
  by_cases hd : (d - b).toNat < n
  · have hdb : b + BitVec.ofNat w (d - b).toNat = d := by
      rw [BitVec.ofNat_toNat, BitVec.setWidth_eq, BitVec.add_comm, BitVec.sub_add_cancel]
    have hc := hown c (d - b).toNat hd (by rw [hdb]; exact hcd)
    have hca : (c - a).toNat = (d - b).toNat := by
      rw [hc]
      exact toNat_behind a (Nat.lt_of_lt_of_le hd hv)
    rw [if_pos hd, if_pos (by rw [hca]; exact hd), hca]
  · have hc : ¬ (c - a).toNat < n := by
      intro hlt
      have hca : a + BitVec.ofNat v (c - a).toNat = c := by
        rw [BitVec.ofNat_toNat, BitVec.setWidth_eq, BitVec.add_comm, BitVec.sub_add_cancel]
      have hplace := h (c - a).toNat hlt
      rw [hca, hcd] at hplace
      have hdb : (d - b).toNat = (c - a).toNat := by
        rw [Option.some.inj hplace]
        exact toNat_behind b (Nat.lt_of_lt_of_le hlt hw)
      omega
    rw [if_neg hd, if_neg hc]
    exact hview c d hcd

/-- A word beside a write. -/
theorem word_apply_beside {x : Write w} (h : ∀ k, k < n → ¬ x.Covers (b + BitVec.ofNat w k)) :
    ByteMemory.word (x.apply p) b n = ByteMemory.word p b n := by
  induction n generalizing b with
  | zero => rfl
  | succ n ih =>
    have hfirst := h 0 (Nat.succ_pos n)
    rw [BitVec.add_zero] at hfirst
    unfold ByteMemory.word
    have hrest : ∀ k, k < n → ¬ x.Covers (b + 1 + BitVec.ofNat w k) := by
      intro k hk
      rw [ofNat_succ]
      exact h (k + 1) (Nat.succ_lt_succ hk)
    have hbyte : x.apply p b = p b := if_neg hfirst
    rw [ih hrest, hbyte]

end Words

end NextEmu.Lib.MappedMemory
