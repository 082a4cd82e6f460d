import NextEmu.Lib.RiscV
import NextEmu.Simple.Alu

/-!
# The ALU computes the manual's values

`alu_exec` against the operations of the manual, at 64 bits and in the 32-bit form,
where the operands are cut and extended before the operation and the result after it.
-/

namespace NextEmu.Simple.AluConformance

open NextEmu.Lib.RiscV

/-- The source's name for an operation. -/
def sourceOp : AluOp → ALUOp
  | .add => .add
  | .sub => .sub
  | .sll => .sll
  | .slt => .slt
  | .sltu => .sltu
  | .xor => .xor
  | .srl => .srl
  | .sra => .sra
  | .or => .or
  | .and => .and
  | .mul => .mul
  | .mulh => .mulh
  | .mulhsu => .mulhsu
  | .mulhu => .mulhu
  | .div => .div
  | .divu => .divu
  | .rem => .rem
  | .remu => .remu

/-! ## 64 bits -/

section Double

variable (a b : BitVec 64)

theorem shamt_eq : (b &&& 0x3f).toNat = b.toNat % 64 := by
  rw [BitVec.toNat_and]
  exact Nat.and_two_pow_sub_one_eq_mod b.toNat 6

theorem setWidth_sshiftRight (x : BitVec 128) :
    (x.sshiftRight 64).setWidth 64 = (x >>> 64).setWidth 64 := by
  refine BitVec.eq_of_getLsbD_eq fun i hi => ?_
  have hlt : 64 + i < 128 := by omega
  have hge : ¬ 128 ≤ i := by omega
  simp [BitVec.getLsbD_sshiftRight, hi, hlt, hge]

theorem aluValue_double (op : AluOp) :
    aluValue a b (sourceOp op) false = some (op.value a b) := by
  have hneg : (-1 : BitVec 64) = BitVec.allOnes 64 := by decide
  cases op with
  | add => rw [value_add]; rfl
  | sub => rw [value_sub]; rfl
  | sll => rw [value_sll, ← shamt_eq]; rfl
  | slt => rw [value_slt]; rfl
  | sltu => rw [value_sltu]; rfl
  | xor => rfl
  | srl => rw [value_srl, ← shamt_eq]; rfl
  | sra => rw [value_sra, ← shamt_eq]; rfl
  | or => rfl
  | and => rfl
  | mul => rw [value_mul]; rfl
  | mulh =>
    rw [value_mulh, ← setWidth_sshiftRight]
    rfl
  | mulhsu => rw [value_mulhsu]; rfl
  | mulhu => rw [value_mulhu]; rfl
  | div =>
    rw [value_div]
    simp only [aluValue, aluSwitch, sourceOp, Bool.false_eq_true, if_false]
    split
    · rfl
    · split
      · rename_i h
        rw [h.1]
      · rfl
  | divu =>
    rw [value_divu]
    simp only [aluValue, aluSwitch, sourceOp, Bool.false_eq_true, if_false]
    split <;> rfl
  | rem =>
    rw [value_rem]
    simp only [aluValue, aluSwitch, sourceOp, Bool.false_eq_true, if_false]
    split
    · rfl
    · split <;> rfl
  | remu =>
    rw [value_remu]
    simp only [aluValue, aluSwitch, sourceOp, Bool.false_eq_true, if_false]
    split <;> rfl

end Double

/-! ## 32 bits -/

section Word

variable (a b : BitVec 32)

theorem setWidth_signExtend : (a.signExtend 64).setWidth 32 = a := by
  rw [BitVec.signExtend, setWidth_ofInt (by decide), BitVec.ofInt_toInt]

theorem toInt_extended : (a.signExtend 64).toInt = a.toInt :=
  BitVec.toInt_signExtend_of_le (by decide)

theorem shamt32_eq : (b.signExtend 64 &&& 0x1f).toNat = b.toNat % 32 := by
  have hlow : (b.signExtend 64).toNat % 2 ^ 32 = b.toNat := by
    rw [← BitVec.toNat_setWidth, setWidth_signExtend]
  have hand : (b.signExtend 64 &&& 0x1f).toNat = (b.signExtend 64).toNat % 32 := by
    rw [BitVec.toNat_and]
    exact Nat.and_two_pow_sub_one_eq_mod _ 5
  omega

theorem setWidth_shl (k : Nat) : (a.signExtend 64 <<< k).setWidth 32 = a <<< k := by
  refine BitVec.eq_of_getLsbD_eq fun i hi => ?_
  have hi' : i < 64 := by omega
  have hk : i - k < 32 := by omega
  have hk' : i - k < 64 := by omega
  simp only [BitVec.getLsbD_setWidth, BitVec.getLsbD_shiftLeft, BitVec.getLsbD_signExtend, hi, hk,
    hk', hi', decide_true, Bool.true_and, if_true]

theorem setWidth_shr (k : Nat) :
    ((a.signExtend 64 &&& 0xffffffff) >>> k).setWidth 32 = a >>> k := by
  have hmask : (a.signExtend 64 &&& 0xffffffff).toNat = a.toNat := by
    rw [BitVec.toNat_and]
    have hand := Nat.and_two_pow_sub_one_eq_mod (a.signExtend 64).toNat 32
    rw [← BitVec.toNat_setWidth, setWidth_signExtend] at hand
    exact hand
  refine BitVec.eq_of_toNat_eq ?_
  have ha := a.isLt
  have hle : a.toNat >>> k ≤ a.toNat := Nat.shiftRight_le _ _
  rw [BitVec.toNat_setWidth, BitVec.toNat_ushiftRight, BitVec.toNat_ushiftRight, hmask,
    Nat.mod_eq_of_lt (Nat.lt_of_le_of_lt hle ha)]

theorem setWidth_sar (k : Nat) :
    ((a.signExtend 64).sshiftRight k).setWidth 32 = a.sshiftRight k := by
  rw [BitVec.sshiftRight, setWidth_ofInt (by decide), toInt_extended]
  rfl

theorem extended_eq_zero : a.signExtend 64 = 0 ↔ a = 0 := by
  constructor
  · intro h
    rw [← setWidth_signExtend a, h]
    rfl
  · rintro rfl
    rfl

theorem extended_ne_intMin : a.signExtend 64 ≠ BitVec.intMin 64 := by
  intro h
  have hint := congrArg BitVec.toInt h
  have hmin : (BitVec.intMin 64).toInt = -2 ^ 63 := by decide
  have hlow := BitVec.le_toInt a
  rw [toInt_extended, hmin] at hint
  omega

/-- The signed overflow has the wrapped result, so its own case makes no difference. -/
theorem value_div_word : AluOp.div.value a b =
    if b = 0 then -1 else BitVec.ofInt 32 (a.toInt.tdiv b.toInt) := by
  simp only [AluOp.value]
  split
  · rfl
  · split
    · rename_i h
      rw [h.1, h.2]
      decide
    · rfl

theorem value_rem_word : AluOp.rem.value a b =
    if b = 0 then a else BitVec.ofInt 32 (a.toInt.tmod b.toInt) := by
  simp only [AluOp.value]
  split
  · rfl
  · split
    · rename_i h
      rw [h.1, h.2]
      decide
    · rfl

/-- The `switch` on extended operands has the 32-bit value in its low half. -/
theorem aluSwitch_word (op : WordOp) :
    (aluSwitch (a.signExtend 64) (b.signExtend 64) (sourceOp op.toAlu) true).map
      (·.setWidth 32) = some (op.toAlu.value a b) := by
  have hmin := extended_ne_intMin a
  cases op with
  | add =>
    simp only [aluSwitch, WordOp.toAlu, sourceOp, Option.map_some, ← value_add]
    rw [AluOp.value, setWidth_ofInt (by decide), toInt_extended, toInt_extended]
    rfl
  | sub =>
    simp only [aluSwitch, WordOp.toAlu, sourceOp, Option.map_some, ← value_sub]
    rw [AluOp.value, setWidth_ofInt (by decide), toInt_extended, toInt_extended]
    rfl
  | mul =>
    simp only [aluSwitch, WordOp.toAlu, sourceOp, Option.map_some, ← value_mul]
    rw [AluOp.value, setWidth_ofInt (by decide), toInt_extended, toInt_extended]
    rfl
  | sll =>
    simp only [aluSwitch, WordOp.toAlu, sourceOp, Option.map_some, value_sll, if_true]
    rw [shamt32_eq, setWidth_shl]
  | srl =>
    simp only [aluSwitch, WordOp.toAlu, sourceOp, Option.map_some, value_srl, if_true]
    rw [shamt32_eq, setWidth_shr]
  | sra =>
    simp only [aluSwitch, WordOp.toAlu, sourceOp, Option.map_some, value_sra, if_true]
    rw [shamt32_eq, setWidth_sar]
  | div =>
    simp only [aluSwitch, WordOp.toAlu, sourceOp, extended_eq_zero, hmin, false_and, if_false,
      value_div_word, sdiv_eq_ofInt, toInt_extended]
    split
    · rfl
    · rw [Option.map_some, setWidth_ofInt (by decide)]
  | rem =>
    simp only [aluSwitch, WordOp.toAlu, sourceOp, extended_eq_zero, hmin, false_and, if_false,
      value_rem_word, srem_eq_ofInt, toInt_extended]
    split
    · rw [Option.map_some, setWidth_signExtend]
    · rw [Option.map_some, setWidth_ofInt (by decide)]
  | divu =>
    simp only [aluSwitch, WordOp.toAlu, sourceOp, extended_eq_zero, if_true, value_divu,
      setWidth_signExtend]
    split
    · rfl
    · rw [Option.map_some, BitVec.setWidth_setWidth_of_le _ (by decide), BitVec.setWidth_eq]
  | remu =>
    simp only [aluSwitch, WordOp.toAlu, sourceOp, extended_eq_zero, if_true, value_remu,
      setWidth_signExtend]
    split
    · rw [Option.map_some, setWidth_signExtend]
    · rw [Option.map_some, BitVec.setWidth_setWidth_of_le _ (by decide), BitVec.setWidth_eq]

end Word

theorem aluValue_word (a b : BitVec 64) (op : WordOp) :
    aluValue a b (sourceOp op.toAlu) true = some (op.toAlu.wordValue a b) := by
  have hswitch := aluSwitch_word (a.setWidth 32) (b.setWidth 32) op
  unfold aluValue int32
  rw [if_pos rfl]
  obtain ⟨r, hr, hv⟩ := Option.map_eq_some_iff.mp hswitch
  rw [hr, Option.map_some, hv]
  rfl

end NextEmu.Simple.AluConformance
