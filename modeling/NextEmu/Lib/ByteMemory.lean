import Mathlib.Algebra.Order.Ring.Int

/-!
# Byte memories

A memory with a byte at each of its 2^w addresses. `word` is the little-endian word of
consecutive bytes and a `Write` replaces some; the byte at an address is that of the last
write that covers it, which is what a memory is for. A `Beat` is a write of which a strobe
picks the bytes; beats that follow one another lay a buffer into the memory.
-/

namespace NextEmu.Lib.ByteMemory

variable {w : Nat}

abbrev Memory (w : Nat) := BitVec w → BitVec 8

/-- The little-endian word of the `len` bytes from `a` on. -/
def word (m : Memory w) (a : BitVec w) : (len : Nat) → BitVec (8 * len)
  | 0 => 0#0
  | len + 1 => word m (a + 1) len ++ m a

/-- The `len` bytes of a value, for the addresses from `addr` on. -/
structure Write (w : Nat) where
  addr : BitVec w
  len : Nat
  value : BitVec (8 * len)

namespace Write

def Covers (x : Write w) (a : BitVec w) : Prop := (a - x.addr).toNat < x.len

instance (x : Write w) (a : BitVec w) : Decidable (x.Covers a) :=
  inferInstanceAs (Decidable (_ < _))

/-- The byte for an address that is covered. -/
def byte (x : Write w) (a : BitVec w) : BitVec 8 := x.value.extractLsb' (8 * (a - x.addr).toNat) 8

/-- The memory behind the write. -/
def apply (x : Write w) (m : Memory w) : Memory w := fun a => if x.Covers a then x.byte a else m a

/-- What a write to some addresses leaves tells its value. -/
theorem value_eq {a : BitVec w} {len : Nat} {x y : BitVec (8 * len)} {m : Memory w}
    (hlen : len ≤ 2 ^ w)
    (h : apply ⟨a, len, x⟩ m = apply ⟨a, len, y⟩ m) : x = y := by
  refine BitVec.eq_of_getLsbD_eq fun i hi => ?_
  have hk : i / 8 < len := by omega
  have hoff : (a + BitVec.ofNat w (i / 8) - a).toNat = i / 8 := by
    rw [BitVec.add_comm, BitVec.add_sub_cancel, BitVec.toNat_ofNat]
    exact Nat.mod_eq_of_lt (by omega)
  have hbyte := congrFun h (a + BitVec.ofNat w (i / 8))
  simp only [apply, Covers, byte, hoff, hk, if_true] at hbyte
  have hbit := congrArg (·.getLsbD (i % 8)) hbyte
  have hlow : i % 8 < 8 := Nat.mod_lt _ (by decide)
  have hsum : 8 * (i / 8) + i % 8 = i := by omega
  simpa only [BitVec.getLsbD_extractLsb', hlow, decide_true, Bool.true_and, hsum] using hbit

end Write

/-- The memory behind some writes, of which the first is the newest. -/
def replay (m : Memory w) : List (Write w) → Memory w
  | [] => m
  | x :: xs => x.apply (replay m xs)

/-- The last byte written to each address; what was there before when there is none. -/
def lastByte (m : Memory w) (xs : List (Write w)) : Memory w := fun a =>
  match xs.find? (fun x => x.Covers a) with
  | some x => x.byte a
  | none => m a

theorem replay_eq_lastByte (m : Memory w) (xs : List (Write w)) : replay m xs = lastByte m xs := by
  funext a
  induction xs with
  | nil => rfl
  | cons x xs ih =>
    unfold replay lastByte Write.apply
    by_cases h : x.Covers a
    · rw [if_pos h]
      simp only [List.find?_cons, h, decide_true]
    · rw [if_neg h]
      simp only [List.find?_cons, h, decide_false]
      exact ih

/-! ## Beats -/

/-- A write with a strobe bit for each of its bytes. -/
structure Beat (w : Nat) extends Write w where
  strobe : BitVec len

namespace Beat

def Covers (x : Beat w) (a : BitVec w) : Prop := x.strobe.getLsbD (a - x.addr).toNat = true

instance (x : Beat w) (a : BitVec w) : Decidable (x.Covers a) :=
  inferInstanceAs (Decidable (_ = _))

/-- The memory behind the beat. -/
def apply (x : Beat w) (m : Memory w) : Memory w := fun a =>
  if x.Covers a then x.toWrite.byte a else m a

theorem apply_uncovered {x : Beat w} {a : BitVec w} (h : ¬ x.Covers a) (m : Memory w) :
    x.apply m a = m a := if_neg h

theorem apply_strobeless {x : Beat w} (h : ∀ j, x.strobe.getLsbD j = false) (m : Memory w) :
    x.apply m = m := by
  funext a
  exact apply_uncovered (fun hc => by rw [Covers, h] at hc; cases hc) m

end Beat

/-- The memory with the first `n` bytes of a buffer from `a` on. -/
def lay (m : Memory w) (a : BitVec w) (f : Nat → BitVec 8) (n : Nat) : Memory w := fun b =>
  if (b - a).toNat < n then f (b - a).toNat else m b

/-- The distance of an address behind the start. -/
theorem toNat_behind {n : Nat} (a : BitVec w) (h : n < 2 ^ w) :
    (a + BitVec.ofNat w n - a).toNat = n := by
  rw [BitVec.add_comm, BitVec.add_sub_cancel, BitVec.toNat_ofNat]
  exact Nat.mod_eq_of_lt h

theorem lay_behind {m : Memory w} {f : Nat → BitVec 8} {n k : Nat} (a : BitVec w) (h : k < 2 ^ w) :
    lay m a f n (a + BitVec.ofNat w k) =
      if k < n then f k else m (a + BitVec.ofNat w k) := by
  unfold lay
  rw [toNat_behind a h]

/-- A beat behind the laid bytes, of which the strobe picks the first, lays these as well. -/
theorem Beat.apply_lay {m : Memory w} {f : Nat → BitVec 8} {n c : Nat} {a : BitVec w} {x : Beat w}
    (haddr : x.addr = a + BitVec.ofNat w n) (hfit : n + c ≤ 2 ^ w)
    (hstrobe : ∀ j, x.strobe.getLsbD j = decide (j < c))
    (hbyte : ∀ j, j < c → x.value.extractLsb' (8 * j) 8 = f (n + j)) :
    x.apply (lay m a f n) = lay m a f (n + c) := by
  rcases Nat.eq_zero_or_pos c with rfl | hc
  · exact apply_strobeless (fun j => (hstrobe j).trans (decide_eq_false (Nat.not_lt_zero j))) _
  funext b
  have hn : n < 2 ^ w := by omega
  have hb := (b - a).isLt
  have hdist : (b - x.addr).toNat = ((b - a).toNat + (2 ^ w - n)) % 2 ^ w := by
    have hsub : b - x.addr = (b - a) - BitVec.ofNat w n := by
      rw [haddr, BitVec.sub_eq_add_neg, BitVec.sub_eq_add_neg, BitVec.sub_eq_add_neg,
        BitVec.neg_add, BitVec.sub_eq_add_neg, BitVec.add_assoc]
    rw [hsub, BitVec.toNat_sub, BitVec.toNat_ofNat, Nat.mod_eq_of_lt hn, Nat.add_comm]
  by_cases hlt : (b - a).toNat < n
  · have hfar : ¬ x.Covers b := by
      rw [Covers, hstrobe, hdist, Nat.mod_eq_of_lt (by omega), decide_eq_true_eq]
      omega
    rw [apply_uncovered hfar]
    unfold lay
    rw [if_pos hlt, if_pos (by omega)]
  · have hnear : (b - x.addr).toNat = (b - a).toNat - n := by
      have hsum : (b - a).toNat + (2 ^ w - n) = (b - a).toNat - n + 2 ^ w := by omega
      rw [hdist, hsum, Nat.add_mod_right, Nat.mod_eq_of_lt (by omega)]
    unfold apply lay
    by_cases hin : (b - a).toNat - n < c
    · have hcov : x.Covers b := by
        rw [Covers, hstrobe, hnear, decide_eq_true_eq]
        exact hin
      rw [if_pos hcov, if_pos (by omega), Write.byte, hnear, hbyte _ hin]
      congr 1
      omega
    · have hcov : ¬ x.Covers b := by
        rw [Covers, hstrobe, hnear, decide_eq_true_eq]
        exact hin
      rw [if_neg hcov, if_neg hlt, if_neg (by omega)]

end NextEmu.Lib.ByteMemory
