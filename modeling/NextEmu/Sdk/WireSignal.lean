import Mathlib.Algebra.Order.Ring.Int
import NextEmu.Lib.BitField
import NextEmu.Sdk.AddrBus

/-!
# Wire signals

`WireSignal` of `sdk/interface/digital_if.h`. Host memory from `bitVals` on is a total
function, and the words that a Verilator signal is accessed by are little-endian there. Bus
widths and indices are `Nat`, and `signalMutex`, which each access holds from its first to its
last look at the memory, is left out.
-/

namespace NextEmu.Sdk

/-- `bit_val_t`. -/
abbrev BitVal := BitVec 8

def bitUndef : BitVal := 2
def bitPos : BitVal := 1
def bitNeg : BitVal := 0

structure WireSignal where
  bitVals : Nat → BitVec 8
  busWidth : Nat
  isVerilatorSig : Bool

namespace WireSignal

def bitMask (bitIndex : Nat) : BitVec 8 := 1#8 <<< bitIndex

/-- The constructor; `fresh` is what `new` returns. -/
def init (fresh : Nat → BitVec 8) (busWidth : Nat) (val : BitVec 64) : WireSignal where
  bitVals i := if i < busWidth / 8 + 1 then (val >>> (8 * i)).setWidth 8 else fresh i
  busWidth := busWidth
  isVerilatorSig := false

/-- `ptr[j] |= 1 << shift` or `ptr[j] &= ~(1 << shift)`, for a pointer to words of `k` bytes. -/
def setWord (m : Nat → BitVec 8) (k j shift : Nat) (bitVal : BitVal) : Nat → BitVec 8 :=
  let word := readBytes m (k * j) k
  writeBytes m (k * j) k
    (if bitVal ≠ 0 then word ||| 1#(8 * k) <<< shift else word &&& ~~~ (1#(8 * k) <<< shift))

/-- `ptr[j] & (1 << shift)`. -/
def testWord (m : Nat → BitVec 8) (k j shift : Nat) : Bool :=
  readBytes m (k * j) k &&& 1#(8 * k) <<< shift != 0

/-- `setBit`, with what it returns. The assertion behind the five layouts cannot fail. -/
def setBit (s : WireSignal) (bitIndex : Nat) (bitVal : BitVal) : Bool × WireSignal :=
  if bitIndex ≥ s.busWidth then (false, s)
  else
    let m :=
      if s.isVerilatorSig then
        if 1 ≤ s.busWidth ∧ s.busWidth ≤ 8 then setWord s.bitVals 1 0 bitIndex bitVal
        else if 9 ≤ s.busWidth ∧ s.busWidth ≤ 16 then setWord s.bitVals 2 0 bitIndex bitVal
        else if 17 ≤ s.busWidth ∧ s.busWidth ≤ 32 then setWord s.bitVals 4 0 bitIndex bitVal
        else if 33 ≤ s.busWidth ∧ s.busWidth ≤ 64 then setWord s.bitVals 8 0 bitIndex bitVal
        else setWord s.bitVals 4 (bitIndex / 32) (bitIndex % 32) bitVal
      else
        Function.update s.bitVals (bitIndex / 8)
          (if bitVal = bitPos then s.bitVals (bitIndex / 8) ||| bitMask (bitIndex % 8)
          else s.bitVals (bitIndex / 8) &&& ~~~ bitMask (bitIndex % 8))
    (true, { s with bitVals := m })

/-- `getBit`, which returns -1 for an index that is out of range. -/
def getBit (s : WireSignal) (bitIndex : Nat) : BitVal :=
  if bitIndex ≥ s.busWidth then -1
  else if s.isVerilatorSig then
    if
      if 1 ≤ s.busWidth ∧ s.busWidth ≤ 8 then testWord s.bitVals 1 0 bitIndex
      else if 9 ≤ s.busWidth ∧ s.busWidth ≤ 16 then testWord s.bitVals 2 0 bitIndex
      else if 17 ≤ s.busWidth ∧ s.busWidth ≤ 32 then testWord s.bitVals 4 0 bitIndex
      else if 33 ≤ s.busWidth ∧ s.busWidth ≤ 64 then testWord s.bitVals 8 0 bitIndex
      else testWord s.bitVals 4 (bitIndex / 32) (bitIndex % 32)
    then bitPos else bitNeg
  else if s.bitVals (bitIndex / 8) &&& bitMask (bitIndex % 8) ≠ 0 then bitPos
  else bitNeg

/-! ## The bit vector behind the layouts -/

/-- Bit `i` of the bytes `m`. -/
def bitAt (m : Nat → BitVec 8) (i : Nat) : Bool := (m (i / 8)).getLsbD (i % 8)

section Bits

variable {m : Nat → BitVec 8} {k j shift : Nat}

theorem testWord_eq (h : shift < 8 * k) : testWord m k j shift = bitAt m (8 * (k * j) + shift) := by
  have hdiv : (8 * (k * j) + shift) / 8 = k * j + shift / 8 := Nat.mul_add_div (by decide) ..
  have hmod : (8 * (k * j) + shift) % 8 = shift % 8 := Nat.mul_add_mod ..
  rw [testWord, Lib.BitField.and_twoPow_ne_zero _ h, getLsbD_readBytes, bitAt, hdiv, hmod,
    decide_eq_true h, Bool.true_and]

/-- Setting a bit of a word sets this one bit of the vector. -/
theorem bitAt_setWord (h : shift < 8 * k) (bitVal : BitVal) (i : Nat) :
    bitAt (setWord m k j shift bitVal) i =
      if i = 8 * (k * j) + shift then decide (bitVal ≠ 0) else bitAt m i := by
  have hword : ∀ n, (if bitVal ≠ 0 then readBytes m (k * j) k ||| 1#(8 * k) <<< shift
      else readBytes m (k * j) k &&& ~~~ (1#(8 * k) <<< shift)).getLsbD n =
        if n = shift then decide (bitVal ≠ 0) else (readBytes m (k * j) k).getLsbD n := by
    intro n
    have hset := Lib.BitField.getLsbD_setBit (readBytes m (k * j) k) shift (decide (bitVal ≠ 0)) n
    rw [decide_eq_true h, Bool.and_true] at hset
    rw [← hset, Lib.BitField.setBit, BitVec.twoPow_eq]
    simp only [decide_eq_true_eq]
  have hmod : i % 8 < 8 := Nat.mod_lt i (by decide)
  unfold bitAt setWord writeBytes
  by_cases hin : k * j ≤ i / 8 ∧ i / 8 < k * j + k
  · have hindex : 8 * (i / 8 - k * j) + i % 8 = i - 8 * (k * j) := by omega
    have hback : i - 8 * (k * j) = shift ↔ i = 8 * (k * j) + shift := by omega
    have hdiv : k * j + (i - 8 * (k * j)) / 8 = i / 8 := by omega
    have hrest : (i - 8 * (k * j)) % 8 = i % 8 := by omega
    have hlt : i - 8 * (k * j) < 8 * k := by omega
    rw [if_pos hin, BitVec.getLsbD_extractLsb', decide_eq_true hmod, Bool.true_and, hindex, hword,
      getLsbD_readBytes, hdiv, hrest, decide_eq_true hlt, Bool.true_and]
    by_cases heq : i = 8 * (k * j) + shift
    · rw [if_pos heq, if_pos (hback.mpr heq)]
    · rw [if_neg heq, if_neg (heq ∘ hback.mp)]
  · have hne : ¬ i = 8 * (k * j) + shift := by omega
    rw [if_neg hin, if_neg hne]

end Bits

/-- Whether the signal takes a value for a 1. -/
def takes (s : WireSignal) (bitVal : BitVal) : Bool :=
  if s.isVerilatorSig then bitVal ≠ 0 else bitVal = bitPos

section Spec

variable {s : WireSignal} {i : Nat}

/-- Each of the layouts accesses bit `i` of the vector, as a bit of one of its words. -/
theorem layout {α : Type} (access : Nat → Nat → Nat → α) {w : Nat} (h : i < w) :
    ∃ k j shift, shift < 8 * k ∧ 8 * (k * j) + shift = i ∧
      (if 1 ≤ w ∧ w ≤ 8 then access 1 0 i
        else if 9 ≤ w ∧ w ≤ 16 then access 2 0 i
        else if 17 ≤ w ∧ w ≤ 32 then access 4 0 i
        else if 33 ≤ w ∧ w ≤ 64 then access 8 0 i
        else access 4 (i / 32) (i % 32)) = access k j shift := by
  by_cases h8 : 1 ≤ w ∧ w ≤ 8
  · exact ⟨1, 0, i, by omega, by omega, if_pos h8⟩
  by_cases h16 : 9 ≤ w ∧ w ≤ 16
  · exact ⟨2, 0, i, by omega, by omega, (if_neg h8).trans (if_pos h16)⟩
  by_cases h32 : 17 ≤ w ∧ w ≤ 32
  · exact ⟨4, 0, i, by omega, by omega, ((if_neg h8).trans (if_neg h16)).trans (if_pos h32)⟩
  rw [if_neg h8, if_neg h16, if_neg h32]
  by_cases h64 : 33 ≤ w ∧ w ≤ 64
  · exact ⟨8, 0, i, by omega, by omega, if_pos h64⟩
  · exact ⟨4, i / 32, i % 32, by omega, by omega, if_neg h64⟩

theorem getBit_out (h : s.busWidth ≤ i) : s.getBit i = -1 := by
  unfold getBit
  exact if_pos h

theorem getBit_in (h : i < s.busWidth) :
    s.getBit i = if bitAt s.bitVals i then bitPos else bitNeg := by
  unfold getBit
  rw [if_neg (Nat.not_le.mpr h)]
  by_cases hver : s.isVerilatorSig = true
  · obtain ⟨k, j, shift, hshift, hindex, heq⟩ := layout (testWord s.bitVals) h
    rw [if_pos hver, heq, testWord_eq hshift, hindex]
  · have hmod : i % 8 < 8 := Nat.mod_lt i (by decide)
    have htest := Lib.BitField.and_twoPow_ne_zero (s.bitVals (i / 8)) hmod
    rw [if_neg hver, bitAt, ← htest, bitMask]
    simp only [bne_iff_ne]

theorem setBit_out (h : s.busWidth ≤ i) (bitVal : BitVal) : s.setBit i bitVal = (false, s) := by
  unfold setBit
  exact if_pos h

/-- A call of `setBit` in range sets this one bit. -/
theorem setBit_in (h : i < s.busWidth) (bitVal : BitVal) :
    ∃ m, s.setBit i bitVal = (true, { s with bitVals := m }) ∧
      ∀ j, bitAt m j = if j = i then s.takes bitVal else bitAt s.bitVals j := by
  unfold setBit takes
  rw [if_neg (Nat.not_le.mpr h)]
  refine ⟨_, rfl, fun b => ?_⟩
  by_cases hver : s.isVerilatorSig = true
  · obtain ⟨k, j, shift, hshift, hindex, heq⟩ :=
      layout (fun k j shift => setWord s.bitVals k j shift bitVal) h
    rw [if_pos hver, if_pos hver, heq, bitAt_setWord hshift, hindex]
  · have hmod : i % 8 < 8 := Nat.mod_lt i (by decide)
    have hset := Lib.BitField.getLsbD_setBit (s.bitVals (i / 8)) (i % 8)
      (decide (bitVal = bitPos)) (b % 8)
    rw [Lib.BitField.setBit, BitVec.twoPow_eq, decide_eq_true hmod, Bool.and_true] at hset
    simp only [decide_eq_true_eq] at hset
    rw [if_neg hver, if_neg hver, bitAt, bitAt, Function.update_apply, bitMask]
    by_cases hbyte : b / 8 = i / 8
    · have hback : b % 8 = i % 8 ↔ b = i := by omega
      rw [if_pos hbyte, hset, hbyte]
      by_cases heq : b = i
      · rw [if_pos heq, if_pos (hback.mpr heq)]
      · rw [if_neg heq, if_neg (heq ∘ hback.mp)]
    · have hne : ¬ b = i := fun heq => hbyte (congrArg (· / 8) heq)
      rw [if_neg hbyte, if_neg hne]

/-- A new signal has the bits of the value, and zeros behind them. -/
theorem bitAt_init (fresh : Nat → BitVec 8) (w : Nat) (val : BitVec 64) (h : i < w) :
    bitAt (init fresh w val).bitVals i = val.getLsbD i := by
  have hin : i / 8 < w / 8 + 1 := Nat.lt_succ_of_le (Nat.div_le_div_right (Nat.le_of_lt h))
  have hmod : i % 8 < 8 := Nat.mod_lt i (by decide)
  show (if i / 8 < w / 8 + 1 then (val >>> (8 * (i / 8))).setWidth 8 else _).getLsbD _ = _
  rw [if_pos hin, BitVec.getLsbD_setWidth, decide_eq_true hmod, Bool.true_and,
    BitVec.getLsbD_ushiftRight, Nat.div_add_mod]

end Spec

end WireSignal

end NextEmu.Sdk
