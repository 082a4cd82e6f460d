import Mathlib.Algebra.Order.Ring.Int

/-!
# Bit-fields of a machine word

A C bit-field is a run of bits of a word. `field` reads one, `setField` writes
one, and `setBit` is the one-bit case with a Boolean value. The lemmas say what
each bit of the result is, so that a statement about fields becomes one about
bits, where two fields are told apart by their positions.
-/

namespace NextEmu.Lib.BitField

/-- The `w` bits of `v` from bit `lo` on. -/
abbrev field {n : Nat} (v : BitVec n) (lo w : Nat) : BitVec w := v.extractLsb' lo w

/-- `v` with bit `i` set to `b`. -/
def setBit {n : Nat} (v : BitVec n) (i : Nat) (b : Bool) : BitVec n :=
  if b then v ||| BitVec.twoPow n i else v &&& ~~~ BitVec.twoPow n i

/-- `v` with the `w` bits from bit `lo` on replaced by `x`. -/
def setField {n w : Nat} (v : BitVec n) (lo : Nat) (x : BitVec w) : BitVec n :=
  (v &&& ~~~ ((BitVec.allOnes w).setWidth n <<< lo)) ||| (x.setWidth n <<< lo)

@[simp] theorem getLsbD_setBit {n : Nat} (v : BitVec n) (i : Nat) (b : Bool) (j : Nat) :
    (setBit v i b).getLsbD j = if j = i then b && decide (i < n) else v.getLsbD j := by
  unfold setBit
  by_cases hj : j < n
  · by_cases hji : j = i
    · subst hji
      cases b <;> simp [hj]
    · cases b <;> simp [hj, hji]
  · have hn : n ≤ j := Nat.le_of_not_lt hj
    by_cases hji : j = i
    · subst hji
      rw [BitVec.getLsbD_of_ge _ _ hn]
      simp [hj]
    · rw [BitVec.getLsbD_of_ge _ _ hn, BitVec.getLsbD_of_ge _ _ hn]
      simp [hji]

@[simp] theorem getLsbD_setField {n w : Nat} (v : BitVec n) (lo : Nat) (x : BitVec w) (j : Nat) :
    (setField v lo x).getLsbD j =
      if lo ≤ j ∧ j < lo + w then decide (j < n) && x.getLsbD (j - lo) else v.getLsbD j := by
  unfold setField
  by_cases hj : j < n
  · by_cases hlo : j < lo
    · have hr : ¬ (lo ≤ j ∧ j < lo + w) := by omega
      simp [hj, hlo, hr]
    · by_cases hw : j < lo + w
      · have hr : lo ≤ j ∧ j < lo + w := by omega
        have hd : j - lo < w := by omega
        simp [hj, hlo, hr, hd]
      · have hr : ¬ (lo ≤ j ∧ j < lo + w) := by omega
        have hd : ¬ j - lo < w := by omega
        have hx : x.getLsbD (j - lo) = false := BitVec.getLsbD_of_ge _ _ (by omega)
        simp [hj, hlo, hr, hd, hx]
  · rw [BitVec.getLsbD_of_ge _ _ (Nat.le_of_not_lt hj)]
    simp [hj, BitVec.getLsbD_of_ge v j (Nat.le_of_not_lt hj)]

theorem getLsbD_setBit_ne {n : Nat} (v : BitVec n) {i j : Nat} (b : Bool) (h : j ≠ i) :
    (setBit v i b).getLsbD j = v.getLsbD j := by
  rw [getLsbD_setBit, if_neg h]

/-- Words that agree on the bits of a field have the same field. -/
theorem field_congr {n : Nat} {v v' : BitVec n} {lo w : Nat}
    (h : ∀ i, lo ≤ i → i < lo + w → v'.getLsbD i = v.getLsbD i) : field v' lo w = field v lo w := by
  refine BitVec.eq_of_getLsbD_eq fun i hi => ?_
  simp only [BitVec.getLsbD_extractLsb', hi, decide_true, Bool.true_and]
  exact h (lo + i) (by omega) (by omega)

theorem toNat_field {n : Nat} (v : BitVec n) (lo w : Nat) :
    (field v lo w).toNat = v.toNat / 2 ^ lo % 2 ^ w := by
  rw [BitVec.extractLsb'_toNat, Nat.shiftRight_eq_div_pow]

theorem toNat_append {n k : Nat} (hi : BitVec n) (lo : BitVec k) :
    (hi ++ lo).toNat = hi.toNat * 2 ^ k + lo.toNat := by
  rw [BitVec.toNat_append, ← Nat.shiftLeft_add_eq_or_of_lt lo.isLt, Nat.shiftLeft_eq]

/-! Words that stay within a mask. -/

/-- `v` has no bit outside `mask`. -/
def Within {n : Nat} (v mask : BitVec n) : Prop := v &&& ~~~ mask = 0

theorem within_iff {n : Nat} {v mask : BitVec n} :
    Within v mask ↔ ∀ i, v.getLsbD i = true → mask.getLsbD i = true := by
  unfold Within
  constructor
  · intro h i hi
    have hn : i < n := BitVec.lt_of_getLsbD hi
    have hbit := congrArg (·.getLsbD i) h
    simpa [hi, hn] using hbit
  · intro h
    refine BitVec.eq_of_getLsbD_eq fun i hi => ?_
    cases hv : v.getLsbD i with
    | false => simp [hv]
    | true => simp [hv, h i hv]

theorem within_and {n : Nat} (v mask : BitVec n) : Within (v &&& mask) mask := by
  refine within_iff.mpr fun i hi => ?_
  rw [BitVec.getLsbD_and, Bool.and_eq_true] at hi
  exact hi.2

theorem Within.trans {n : Nat} {v mask mask' : BitVec n} (h : Within v mask)
    (h' : Within mask mask') : Within v mask' :=
  within_iff.mpr fun i hi => within_iff.mp h' i (within_iff.mp h i hi)

theorem Within.and {n : Nat} {v mask : BitVec n} (h : Within v mask) (x : BitVec n) :
    Within (v &&& x) mask := by
  refine within_iff.mpr fun i hi => within_iff.mp h i ?_
  rw [BitVec.getLsbD_and, Bool.and_eq_true] at hi
  exact hi.1

theorem Within.or {n : Nat} {v v' mask : BitVec n} (h : Within v mask) (h' : Within v' mask) :
    Within (v ||| v') mask := by
  refine within_iff.mpr fun i hi => ?_
  rw [BitVec.getLsbD_or, Bool.or_eq_true] at hi
  exact hi.elim (within_iff.mp h i) (within_iff.mp h' i)

theorem Within.setBit {n : Nat} {v mask : BitVec n} (h : Within v mask) {i : Nat}
    (hi : mask.getLsbD i = true) (b : Bool) : Within (setBit v i b) mask := by
  refine within_iff.mpr fun j hj => ?_
  rw [getLsbD_setBit] at hj
  by_cases hji : j = i
  · rw [hji]
    exact hi
  · rw [if_neg hji] at hj
    exact within_iff.mp h j hj

/-! Copying fields of a word one by one is masking it, and writing bits of a mask leaves what
is outside of it. -/

theorem copyBit {n : Nat} {v s mask : BitVec n} (h : v = s &&& mask) (i : Nat) :
    setBit v i (s.getLsbD i) = s &&& setBit mask i true := by
  subst h
  refine BitVec.eq_of_getLsbD_eq fun j hj => ?_
  simp only [getLsbD_setBit, BitVec.getLsbD_and, Bool.true_and]
  by_cases hji : j = i
  · subst hji
    simp [hj]
  · simp only [hji, if_false]

theorem copyField {n : Nat} {v s mask : BitVec n} (h : v = s &&& mask) (lo w : Nat) :
    setField v lo (field s lo w) = s &&& setField mask lo (BitVec.allOnes w) := by
  subst h
  refine BitVec.eq_of_getLsbD_eq fun j hj => ?_
  simp only [getLsbD_setField, BitVec.getLsbD_and]
  by_cases hin : lo ≤ j ∧ j < lo + w
  · have hw : j - lo < w := by omega
    have hsum : lo + (j - lo) = j := by omega
    simp [hin, hj, hw, hsum]
  · simp only [hin, if_false]

theorem setBit_and_not {n : Nat} {mask : BitVec n} {i : Nat} (hi : mask.getLsbD i = true)
    (v : BitVec n) (b : Bool) : setBit v i b &&& ~~~ mask = v &&& ~~~ mask := by
  refine BitVec.eq_of_getLsbD_eq fun j hj => ?_
  simp only [BitVec.getLsbD_and, BitVec.getLsbD_not, getLsbD_setBit]
  by_cases hji : j = i
  · subst hji
    simp [hi]
  · simp only [hji, if_false]

/-- The bits under a mask replaced, and the others looked at. -/
theorem replace_and_not {n : Nat} (v data mask : BitVec n) :
    ((v &&& ~~~ mask) ||| (data &&& mask)) &&& ~~~ mask = v &&& ~~~ mask := by
  refine BitVec.eq_of_getLsbD_eq fun j hj => ?_
  simp only [BitVec.getLsbD_and, BitVec.getLsbD_or, BitVec.getLsbD_not]
  cases mask.getLsbD j <;> simp

/-! The bits under a mask cleared or set. -/

theorem or_and_not {n : Nat} (v mask : BitVec n) : (v ||| mask) &&& ~~~ mask = v &&& ~~~ mask := by
  rw [BitVec.and_or_distrib_right, BitVec.and_not_self]
  exact BitVec.or_zero

theorem and_not_and {n : Nat} (v mask : BitVec n) : v &&& ~~~ mask &&& mask = 0 := by
  rw [BitVec.and_assoc, BitVec.not_and_self]
  exact BitVec.and_zero

theorem and_not_or {n : Nat} (v mask : BitVec n) : v &&& ~~~ mask ||| mask = v ||| mask := by
  refine BitVec.eq_of_getLsbD_eq fun j hj => ?_
  simp only [BitVec.getLsbD_and, BitVec.getLsbD_or, BitVec.getLsbD_not]
  cases mask.getLsbD j <;> simp [hj]

theorem or_and_self {n : Nat} (v mask : BitVec n) : (v ||| mask) &&& mask = mask := by
  refine BitVec.eq_of_getLsbD_eq fun j _ => ?_
  simp only [BitVec.getLsbD_and, BitVec.getLsbD_or]
  cases mask.getLsbD j <;> simp

/-! Fields of a concatenation. -/

/-- A field of a concatenation that lies in its lower part. -/
theorem field_low {n k : Nat} (hi : BitVec n) (lo : BitVec k) {p w : Nat} (h : p + w ≤ k) :
    field (hi ++ lo) p w = field lo p w := by
  refine BitVec.eq_of_getLsbD_eq fun i hw => ?_
  have hp : p + i < k := by omega
  simp only [BitVec.getLsbD_extractLsb', BitVec.getLsbD_append, hp, if_true]

/-- One that lies in its upper part. -/
theorem field_high {n k : Nat} (hi : BitVec n) (lo : BitVec k) {p w : Nat} (h : k ≤ p) :
    field (hi ++ lo) p w = field hi (p - k) w := by
  refine BitVec.eq_of_getLsbD_eq fun i hw => ?_
  have hp : ¬ p + i < k := by omega
  have hsub : p + i - k = p - k + i := by omega
  simp only [BitVec.getLsbD_extractLsb', BitVec.getLsbD_append, hp, if_false, hsub]

theorem field_all {n : Nat} (v : BitVec n) : field v 0 n = v := by
  refine BitVec.eq_of_getLsbD_eq fun i hi => ?_
  simp only [BitVec.getLsbD_extractLsb', hi, decide_true, Bool.true_and, Nat.zero_add]

/-- Testing a bit with a mask of one bit. -/
theorem and_twoPow_ne_zero {n : Nat} (v : BitVec n) {i : Nat} (hi : i < n) :
    (v &&& 1#n <<< i != 0) = v.getLsbD i := by
  rw [← BitVec.twoPow_eq, BitVec.and_twoPow]
  cases hv : v.getLsbD i with
  | false => simp
  | true =>
    have hne : BitVec.twoPow n i ≠ 0 := by
      intro h
      have hbit := congrArg (·.getLsbD i) h
      simp [hi] at hbit
    simpa using hne

/-- An odd number minus one is the number with bit 0 cleared. -/
theorem clear_bit0 {n : Nat} (hn : 0 < n) (v : BitVec n) :
    (if v &&& 1 ≠ 0 then v ^^^ 1 else v) = v &&& ~~~ 1 := by
  have hone : v &&& 1 ≠ 0 ↔ v.getLsbD 0 = true := by
    rw [← and_twoPow_ne_zero v hn, bne_iff_ne, BitVec.shiftLeft_zero]
    rfl
  simp only [hone]
  refine BitVec.eq_of_getLsbD_eq fun i hi => ?_
  have hbit : (1 : BitVec n).getLsbD i = decide (i = 0) := by
    have hone : (1 : BitVec n) = 1#n := rfl
    rw [hone, BitVec.getLsbD_one]
    simp [hn]
  split
  · simp only [BitVec.getLsbD_xor, BitVec.getLsbD_and, BitVec.getLsbD_not, hbit, hi]
    grind
  · simp only [BitVec.getLsbD_and, BitVec.getLsbD_not, hbit, hi]
    grind

/-! Masks for the bits from a position on, and the alignment that they compute. -/

theorem getLsbD_highMask {n : Nat} (k i : Nat) :
    (-(1#n <<< k)).getLsbD i = (decide (k ≤ i) && decide (i < n)) := by
  rw [← BitVec.twoPow_eq, BitVec.getLsbD_neg]
  simp only [BitVec.getLsbD_twoPow]
  by_cases hk : k ≤ i
  · by_cases hki : i = k
    · subst hki
      simp
    · have hlt : k < i := by omega
      by_cases hi : i < n
      · have hkn : k < n := by omega
        simp [hk, hi, hlt, hkn, Ne.symm hki]
      · simp [hi, Ne.symm hki]
  · simp
    grind

theorem getLsbD_lowMask {n : Nat} (k i : Nat) :
    (1#n <<< k - 1).getLsbD i = (decide (i < k) && decide (i < n)) := by
  have hnot : 1#n <<< k - 1 = ~~~ (-(1#n <<< k)) := (BitVec.not_neg _).symm
  rw [hnot, BitVec.getLsbD_not, getLsbD_highMask]
  grind

theorem and_highMask {n k : Nat} (hk : k < n) (x : BitVec n) :
    x &&& -(1#n <<< k) = x - x % (1#n <<< k) := by
  have hshift : x &&& -(1#n <<< k) = (x >>> k) <<< k := by
    refine BitVec.eq_of_getLsbD_eq fun i hi => ?_
    simp only [BitVec.getLsbD_and, getLsbD_highMask, BitVec.getLsbD_shiftLeft,
      BitVec.getLsbD_ushiftRight, hi]
    by_cases h : k ≤ i
    · simp [h, Nat.not_lt.mpr h]
    · simp [h]
  have hpow : (1#n <<< k).toNat = 2 ^ k := by
    simp [← BitVec.twoPow_eq, BitVec.toNat_twoPow,
      Nat.mod_eq_of_lt (Nat.pow_lt_pow_right (by omega : 1 < 2) hk)]
  have hle : x % (1#n <<< k) ≤ x := by
    rw [BitVec.le_def, BitVec.toNat_umod]
    exact Nat.mod_le _ _
  have hlt : x.toNat / 2 ^ k * 2 ^ k < 2 ^ n :=
    Nat.lt_of_le_of_lt (Nat.div_mul_le_self _ _) x.isLt
  rw [hshift]
  refine BitVec.eq_of_toNat_eq ?_
  rw [BitVec.toNat_sub_of_le hle, BitVec.toNat_shiftLeft, BitVec.toNat_ushiftRight,
    BitVec.toNat_umod, hpow, Nat.shiftLeft_eq, Nat.shiftRight_eq_div_pow, Nat.mod_eq_of_lt hlt]
  have hdm := Nat.div_add_mod x.toNat (2 ^ k)
  have hcomm := Nat.mul_comm (2 ^ k) (x.toNat / 2 ^ k)
  omega

end NextEmu.Lib.BitField
