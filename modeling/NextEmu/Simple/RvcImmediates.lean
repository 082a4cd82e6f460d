import NextEmu.Lib.RiscVCompressed
import NextEmu.Simple.Compressed

/-!
# The fields and immediates of compressed instructions

The source shuffles the bits of each immediate with `binary_concat` and extends its
sign with a mask; every one of them is the immediate of the manual, with its sign or
with zeros in front.
-/

namespace NextEmu.Simple.RvcImmediates

open NextEmu.Lib.BitField NextEmu.Lib.RiscV NextEmu.Lib.RiscV.Compressed

/-! ## Bits -/

section Bits

theorem getLsbD_binaryConcat (v : BitVec 32) {r l s i : Nat} (hr : l ≤ r) (hi : i < 32) :
    (binaryConcat v r l s).getLsbD i =
      (decide (s ≤ i ∧ i ≤ s + (r - l)) && v.getLsbD (i - s + l)) := by
  unfold binaryConcat
  rw [BitVec.getLsbD_shiftLeft, BitVec.getLsbD_and, BitVec.getLsbD_ushiftRight, getLsbD_lowMask]
  grind

theorem orSign_eq {n : Nat} (x : BitVec n) (hn : 0 < n) (hn' : n < 64) :
    orSign (x.setWidth 64) (n - 1) (BitVec.allOnes 64 <<< n) = x.signExtend 64 := by
  have hmsb : x.setWidth 64 >>> (n - 1) ≠ 0 ↔ x.msb = true := by
    have hx := x.isLt
    have hpow : 2 ^ n < 2 ^ 64 := Nat.pow_lt_pow_right (by decide) hn'
    have hshift : (x.setWidth 64 >>> (n - 1)).toNat = x.toNat / 2 ^ (n - 1) := by
      rw [BitVec.toNat_ushiftRight, BitVec.toNat_setWidth, Nat.mod_eq_of_lt (by omega),
        Nat.shiftRight_eq_div_pow]
    have hzero : (0 : BitVec 64).toNat = 0 := rfl
    have hpos := Nat.two_pow_pos (n - 1)
    rw [BitVec.msb_eq_decide, decide_eq_true_eq, ne_eq, ← BitVec.toNat_inj, hshift, hzero,
      Nat.div_eq_zero_iff]
    omega
  unfold orSign
  simp only [hmsb]
  refine BitVec.eq_of_getLsbD_eq fun i hi => ?_
  rw [BitVec.getLsbD_signExtend]
  split
  · rename_i h
    simp only [BitVec.getLsbD_or, BitVec.getLsbD_setWidth, BitVec.getLsbD_shiftLeft,
      BitVec.getLsbD_allOnes, h]
    grind
  · rename_i h
    simp only [BitVec.getLsbD_setWidth, h]
    grind

end Bits

/-! ## Fields and immediates

Each is a run of bits or a sum of shifted runs, compared bit by bit. -/

section Fields

variable (inst : BitVec 32)

/-- One run of bits is a field. -/
theorem binaryConcat_field {r l w : Nat} (hw : r - l + 1 = w) (hr : r < 16) (hl : l ≤ r) :
    binaryConcat inst r l 0 = (field (inst.setWidth 16) l w).setWidth 32 := by
  refine BitVec.eq_of_getLsbD_eq fun i hi => ?_
  simp only [BitVec.getLsbD_setWidth, BitVec.getLsbD_extractLsb', getLsbD_binaryConcat inst hl hi]
  grind

theorem rd_eq : RVC.rd inst = field (inst.setWidth 16) 7 5 := by
  unfold RVC.rd
  rw [binaryConcat_field inst (by rfl) (by decide) (by decide),
    BitVec.setWidth_setWidth_of_le _ (by decide), BitVec.setWidth_eq]

theorem rs2_eq : RVC.rs2 inst = field (inst.setWidth 16) 2 5 := by
  unfold RVC.rs2
  rw [binaryConcat_field inst (by rfl) (by decide) (by decide),
    BitVec.setWidth_setWidth_of_le _ (by decide), BitVec.setWidth_eq]

theorem creg_eq (r : BitVec 3) : 8 + (r.setWidth 32).setWidth 5 = creg r := by
  revert r
  decide

theorem highReg_eq : RVC.highReg inst = creg (field (inst.setWidth 16) 7 3) := by
  unfold RVC.highReg
  rw [binaryConcat_field inst (by rfl) (by decide) (by decide), creg_eq]

theorem lowReg_eq : RVC.lowReg inst = creg (field (inst.setWidth 16) 2 3) := by
  unfold RVC.lowReg
  rw [binaryConcat_field inst (by rfl) (by decide) (by decide), creg_eq]

theorem opcode_eq : RVC.opcode inst =
    field (inst.setWidth 16) 0 2 ++ field (inst.setWidth 16) 13 3 := by
  have hop : inst &&& 0b11 = (field (inst.setWidth 16) 0 2).setWidth 32 :=
    (BitVec.eq_of_getLsbD_eq fun i hi => by
      have h3 : (0b11 : BitVec 32) = 1#32 <<< 2 - 1 := rfl
      simp only [h3, BitVec.getLsbD_and, getLsbD_lowMask, BitVec.getLsbD_setWidth,
        BitVec.getLsbD_extractLsb']
      grind)
  have hfunct : (inst >>> 13) &&& 0b111 = (field (inst.setWidth 16) 13 3).setWidth 32 :=
    (BitVec.eq_of_getLsbD_eq fun i hi => by
      have h7 : (0b111 : BitVec 32) = 1#32 <<< 3 - 1 := rfl
      simp only [h7, BitVec.getLsbD_and, getLsbD_lowMask, BitVec.getLsbD_setWidth,
        BitVec.getLsbD_ushiftRight, BitVec.getLsbD_extractLsb']
      grind)
  unfold RVC.opcode
  rw [hop, hfunct]
  refine BitVec.eq_of_getLsbD_eq fun i hi => ?_
  simp only [BitVec.getLsbD_setWidth, BitVec.getLsbD_or, BitVec.getLsbD_shiftLeft,
    BitVec.getLsbD_append, BitVec.getLsbD_extractLsb']
  grind

/-- Words of 32 and of `n` bits with the same bits are the same at 64. -/
theorem setWidth_of_bits {n : Nat} {raw : BitVec 32} {x : BitVec n} (hn : n ≤ 32)
    (h : ∀ i, i < 32 → raw.getLsbD i = x.getLsbD i) : raw.setWidth 64 = x.setWidth 64 := by
  refine BitVec.eq_of_getLsbD_eq fun i hi => ?_
  simp only [BitVec.getLsbD_setWidth, hi, decide_true, Bool.true_and]
  by_cases hlt : i < 32
  · exact h i hlt
  · rw [BitVec.getLsbD_of_ge _ _ (by omega), BitVec.getLsbD_of_ge _ _ (by omega)]

/-- An offset with no sign is shorter than the immediate of the expansion. -/
theorem unsigned_of_bits {n : Nat} {raw : BitVec 32} {x : BitVec n} (hn : n < 12)
    (h : ∀ i, i < 32 → raw.getLsbD i = x.getLsbD i) :
    raw.setWidth 64 = (x.setWidth 12).signExtend 64 := by
  rw [signExtend_setWidth x hn]
  exact setWidth_of_bits (by omega) h

/-- One with a sign; `w` more zeros are below it. -/
theorem signed_of_bits {n : Nat} {raw : BitVec 32} (x : BitVec n) (w m : Nat) (hn : 0 < n)
    (hn' : n + w ≤ 32) (hm : n ≤ m)
    (h : ∀ i, i < 32 → raw.getLsbD i = (x ++ 0#w).getLsbD i) :
    orSign (raw.setWidth 64) (n + w - 1) (BitVec.allOnes 64 <<< (n + w)) =
      (x.signExtend m ++ 0#w).signExtend 64 := by
  rw [signExtend_append x hn hm, setWidth_of_bits hn' h]
  exact orSign_eq _ (by omega) (by omega)

theorem immAddi4spn_eq :
    RVC.immAddi4spn inst = ((uimmAddi4spn (inst.setWidth 16)).setWidth 12).signExtend 64 := by
  refine unsigned_of_bits (by decide) fun i hi => ?_
  simp (disch := omega) only [uimmAddi4spn, BitVec.getLsbD_or, getLsbD_binaryConcat,
    BitVec.getLsbD_append, BitVec.getLsbD_extractLsb', BitVec.getLsbD_setWidth, BitVec.getLsbD_zero]
  grind

theorem immW_eq : RVC.immW inst = ((uimmW (inst.setWidth 16)).setWidth 12).signExtend 64 := by
  refine unsigned_of_bits (by decide) fun i hi => ?_
  simp (disch := omega) only [uimmW, BitVec.getLsbD_or, getLsbD_binaryConcat,
    BitVec.getLsbD_append, BitVec.getLsbD_extractLsb', BitVec.getLsbD_setWidth, BitVec.getLsbD_zero]
  grind

theorem immD_eq : RVC.immD inst = ((uimmD (inst.setWidth 16)).setWidth 12).signExtend 64 := by
  refine unsigned_of_bits (by decide) fun i hi => ?_
  simp (disch := omega) only [uimmD, BitVec.getLsbD_or, getLsbD_binaryConcat,
    BitVec.getLsbD_append, BitVec.getLsbD_extractLsb', BitVec.getLsbD_setWidth, BitVec.getLsbD_zero]
  grind

theorem immLwsp_eq :
    RVC.immLwsp inst = ((uimmLwsp (inst.setWidth 16)).setWidth 12).signExtend 64 := by
  refine unsigned_of_bits (by decide) fun i hi => ?_
  simp (disch := omega) only [uimmLwsp, BitVec.getLsbD_or, getLsbD_binaryConcat,
    BitVec.getLsbD_append, BitVec.getLsbD_extractLsb', BitVec.getLsbD_setWidth, BitVec.getLsbD_zero]
  grind

theorem immLdsp_eq :
    RVC.immLdsp inst = ((uimmLdsp (inst.setWidth 16)).setWidth 12).signExtend 64 := by
  refine unsigned_of_bits (by decide) fun i hi => ?_
  simp (disch := omega) only [uimmLdsp, BitVec.getLsbD_or, getLsbD_binaryConcat,
    BitVec.getLsbD_append, BitVec.getLsbD_extractLsb', BitVec.getLsbD_setWidth, BitVec.getLsbD_zero]
  grind

theorem immSwsp_eq :
    RVC.immSwsp inst = ((uimmSwsp (inst.setWidth 16)).setWidth 12).signExtend 64 := by
  refine unsigned_of_bits (by decide) fun i hi => ?_
  simp (disch := omega) only [uimmSwsp, BitVec.getLsbD_or, getLsbD_binaryConcat,
    BitVec.getLsbD_append, BitVec.getLsbD_extractLsb', BitVec.getLsbD_setWidth, BitVec.getLsbD_zero]
  grind

theorem immSdsp_eq :
    RVC.immSdsp inst = ((uimmSdsp (inst.setWidth 16)).setWidth 12).signExtend 64 := by
  refine unsigned_of_bits (by decide) fun i hi => ?_
  simp (disch := omega) only [uimmSdsp, BitVec.getLsbD_or, getLsbD_binaryConcat,
    BitVec.getLsbD_append, BitVec.getLsbD_extractLsb', BitVec.getLsbD_setWidth, BitVec.getLsbD_zero]
  grind

/-- The shift amount, and the immediate before its sign is extended. -/
theorem imm6_eq : RVC.imm6 inst = (imm6 (inst.setWidth 16)).setWidth 64 := by
  refine setWidth_of_bits (by decide) fun i hi => ?_
  simp (disch := omega) only [imm6, BitVec.getLsbD_or, getLsbD_binaryConcat,
    BitVec.getLsbD_append, BitVec.getLsbD_extractLsb', BitVec.getLsbD_setWidth]
  grind

theorem imm6Signed_eq :
    RVC.imm6Signed inst = ((imm6 (inst.setWidth 16)).signExtend 12).signExtend 64 := by
  unfold RVC.imm6Signed
  rw [signExtend_signExtend _ (by decide) (by decide), imm6_eq]
  exact orSign_eq _ (by decide) (by decide)

theorem immAddi16sp_eq : RVC.immAddi16sp inst =
    ((immAddi16sp (inst.setWidth 16)).signExtend 12).signExtend 64 := by
  rw [signExtend_signExtend _ (by decide) (by decide), ← orSign_eq _ (by decide) (by decide)]
  refine congrArg (orSign · _ _) (setWidth_of_bits (by decide) fun i hi => ?_)
  simp (disch := omega) only [immAddi16sp, BitVec.getLsbD_or, getLsbD_binaryConcat,
    BitVec.getLsbD_append, BitVec.getLsbD_extractLsb', BitVec.getLsbD_setWidth, BitVec.getLsbD_zero]
  grind

theorem immLui_eq : RVC.immLui inst =
    ((imm6 (inst.setWidth 16)).signExtend 20 ++ 0#12).signExtend 64 := by
  refine signed_of_bits (imm6 (inst.setWidth 16)) 12 20 (by decide) (by decide) (by decide)
    fun i hi => ?_
  simp (disch := omega) only [imm6, BitVec.getLsbD_or, getLsbD_binaryConcat,
    BitVec.getLsbD_append, BitVec.getLsbD_extractLsb', BitVec.getLsbD_setWidth, BitVec.getLsbD_zero]
  grind

theorem immJ_eq : RVC.immJ inst =
    ((immJ (inst.setWidth 16)).signExtend 20 ++ 0#1).signExtend 64 := by
  refine signed_of_bits (immJ (inst.setWidth 16)) 1 20 (by decide) (by decide) (by decide)
    fun i hi => ?_
  simp (disch := omega) only [immJ, BitVec.getLsbD_or, getLsbD_binaryConcat,
    BitVec.getLsbD_append, BitVec.getLsbD_extractLsb', BitVec.getLsbD_setWidth, BitVec.getLsbD_zero]
  grind

theorem immB_eq : RVC.immB inst =
    ((immB (inst.setWidth 16)).signExtend 12 ++ 0#1).signExtend 64 := by
  refine signed_of_bits (immB (inst.setWidth 16)) 1 12 (by decide) (by decide) (by decide)
    fun i hi => ?_
  simp (disch := omega) only [immB, BitVec.getLsbD_or, getLsbD_binaryConcat,
    BitVec.getLsbD_append, BitVec.getLsbD_extractLsb', BitVec.getLsbD_setWidth, BitVec.getLsbD_zero]
  grind

end Fields

end NextEmu.Simple.RvcImmediates
